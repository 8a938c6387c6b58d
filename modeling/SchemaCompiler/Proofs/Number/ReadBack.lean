import SchemaCompiler.Json.Scan
import SchemaCompiler.Proofs.Json.Proper
import SchemaCompiler.Proofs.Number.Text

/-!
# Numbers are read back

`readNumber?` reads a JSON numeral as such: an integer if there is neither a fraction nor an
exponent, and else the nearest double. The text of every number is read as that number
(`readNumber?_text`). For a double this has two parts: the decimal that is written is one to which
the double is nearest (`nearestDecimal_shortest`), and each of the ways to write a decimal keeps its
value (`Decimal.readsAs_text`).
-/

namespace SchemaCompiler

/-! ## Decimals -/

/-- The value of a decimal. -/
def Decimal.value (d : Decimal) : ℚ := d.digits * 10 ^ d.exponent

namespace Magnitude

/-- A decimal as a fraction of natural numbers. -/
theorem decimal_eq (n : Nat) (e : Int) :
    ((n * Nat.pow 10 e.toNat : Nat) / (Nat.pow 10 (-e).toNat : Nat) : ℚ) = n * 10 ^ e := by
  obtain ⟨k, rfl | rfl⟩ := e.eq_nat_or_neg
  · simp
  · simp
    field_simp

/-- The double nearest to a decimal depends on its value only. -/
theorem nearestDecimal_congr {n n' : Nat} {e e' : Int}
    (h : (n * 10 ^ e : ℚ) = n' * 10 ^ e') : nearestDecimal n e = nearestDecimal n' e' :=
  nearest_congr (Nat.pow_pos (by decide)) (Nat.pow_pos (by decide))
    (by rw [decimal_eq, decimal_eq, h])

variable {x : Magnitude}

theorem nearestDecimal_exactDecimal (hx : x.Canonical) (nonzero : x.mantissa ≠ 0) :
    nearestDecimal x.exactDecimal.digits x.exactDecimal.exponent = some x := by
  rw [← nearest_self hx nonzero]
  refine nearest_congr (Nat.pow_pos (by decide)) x.denominator_pos ?_
  rw [decimal_eq, exactDecimal]
  have denominator : (x.denominator : ℚ) = 2 ^ (-x.exponent).toNat := by
    simp [Magnitude.denominator, scaledDenominator]
  have ten : (10 : ℚ) = 5 * 2 := by norm_num
  rw [denominator, Nat.pow_eq]
  push_cast
  rw [zpow_neg, zpow_natCast, ten, mul_pow]
  field_simp

theorem nearestDecimal_shortestFrom (hx : x.Canonical) (nonzero : x.mantissa ≠ 0)
    (count more : Nat) :
    nearestDecimal (x.shortestFrom count more).digits (x.shortestFrom count more).exponent =
      some x := by
  induction more generalizing count with
  | zero => exact nearestDecimal_exactDecimal hx nonzero
  | succ more ih =>
    rw [shortestFrom]
    split
    next d found =>
      have back : x.readsBack d := List.find?_some found
      exact beq_iff_eq.1 back
    next => exact ih (count + 1)

/-- The shortest decimal of a double reads back as that double. -/
theorem nearestDecimal_shortest (hx : x.Canonical) (nonzero : x.mantissa ≠ 0) :
    nearestDecimal x.shortest.digits x.shortest.exponent = some x :=
  nearestDecimal_shortestFrom hx nonzero 1 17

theorem digits_shortest_ne_zero (hx : x.Canonical) (nonzero : x.mantissa ≠ 0) :
    x.shortest.digits ≠ 0 := by
  intro zero
  have read := nearestDecimal_shortest hx nonzero
  rw [zero, nearestDecimal, Nat.zero_mul, nearest, if_pos rfl] at read
  exact nonzero (congrArg mantissa (Option.some.inj read)).symm

end Magnitude

/-! ## Reading numerals -/

/-- The value of a decimal digit. -/
def digitValue (c : Char) : Nat := c.toNat - '0'.toNat

/-- The number that digits write. -/
def digitsValue (ds : List Nat) : Nat := ds.foldl (fun n d => 10 * n + d) 0

theorem digitsValue_map (cs : List Char) :
    digitsValue (cs.map digitValue) = Nat.ofDigitChars 10 cs 0 := by
  rw [digitsValue, List.foldl_map]
  rfl

/-- The number that a numeral stands for as such: an integer if it has neither a fraction nor an
exponent, and else the double nearest to its value. -/
def Numeral.number? (n : Numeral) : Option Number :=
  let digits := digitsValue (n.whole ++ n.fraction.getD [])
  if n.fraction.isNone && n.exponent.isNone then
    some (.integer (if n.negative then -digits else digits))
  else
    let exponent : Int := match n.exponent with
      | some e => if e.negative then -digitsValue e.digits else digitsValue e.digits
      | none => 0
    (Magnitude.nearestDecimal digits (exponent - (n.fraction.getD []).length)).map fun x =>
      .double ⟨n.negative, x⟩

/-- The number that a text writes, if it is a numeral and nothing else. -/
def readNumber? (text : List Char) : Option Number :=
  match numeral ⟨text, .start⟩ with
  | .ok (n, i) => if i.rest.isEmpty then n.number? else none
  | .error _ => none

/-! ## Scanning digits -/

/-- A text that does not go on with a digit. -/
def EndsDigits (rest : List Char) : Prop := ∀ c ∈ rest.head?, c.isDigit = false

theorem endsDigits_nil : EndsDigits [] := nofun

theorem digits_append {cs rest : List Char} (h : ∀ c ∈ cs, c.isDigit) (ends : EndsDigits rest)
    (p : Position) : digits (cs ++ rest) p = (cs.map digitValue, ⟨rest, endPlace cs p⟩) := by
  induction cs generalizing p with
  | nil =>
    cases rest with
    | nil => rfl
    | cons c rest =>
      have other : c.isDigit = false := ends c rfl
      rw [List.nil_append, digits, other]
      rfl
  | cons c cs ih =>
    rw [List.forall_mem_cons] at h
    rw [List.cons_append, digits, if_pos h.1, ih h.2]
    rfl

theorem eq_zero_of_digitValue {c : Char} (digit : c.isDigit) (zero : digitValue c = 0) :
    c = '0' := by
  have bound : 48 ≤ c.toNat := by
    rw [Char.isDigit, Bool.and_eq_true, decide_eq_true_eq] at digit
    exact UInt32.le_iff_toNat_le.1 digit.1
  have value : c.toNat - 48 = 0 := zero
  have same : c.toNat = '0'.toNat := by
    change c.toNat = 48
    omega
  exact Char.ext (UInt32.toNat_inj.1 same)

/-- Digits that may stand before a point: one zero, or digits of which the first is not zero. -/
def IsWhole (cs : List Char) : Prop :=
  (∀ c ∈ cs, c.isDigit) ∧ cs ≠ [] ∧ (cs.head? = some '0' → cs = ['0'])

theorem whole_append {cs rest : List Char} (h : IsWhole cs) (ends : EndsDigits rest)
    (p : Position) :
    whole ⟨cs ++ rest, p⟩ = .ok (cs.map digitValue, ⟨rest, endPlace cs p⟩) := by
  obtain ⟨digit, nonempty, leading⟩ := h
  rw [whole, digits_append digit ends]
  split
  next same => simp [nonempty] at same
  next same =>
    -- Two digits or more, of which the first is zero.
    obtain ⟨written, -⟩ := Prod.mk.inj same
    match cs with
    | [] => nomatch written
    | [_] => nomatch (List.cons.inj written).2
    | c :: _ :: _ =>
      obtain rfl := eq_zero_of_digitValue (digit c List.mem_cons_self) (List.cons.inj written).1
      nomatch leading rfl
  next same =>
    obtain ⟨rfl, rfl⟩ := Prod.mk.inj same
    rfl

theorem fraction_append {cs rest : List Char} (digit : ∀ c ∈ cs, c.isDigit) (nonempty : cs ≠ [])
    (ends : EndsDigits rest) (p : Position) :
    fraction ⟨'.' :: cs ++ rest, p⟩ =
      .ok (some (cs.map digitValue), ⟨rest, endPlace ('.' :: cs) p⟩) := by
  rw [fraction]
  simp only [List.cons_append, Input.next]
  rw [digits_append digit ends]
  split
  next same => simp [nonempty] at same
  next same =>
    obtain ⟨rfl, rfl⟩ := Prod.mk.inj same
    rfl

theorem fraction_none {rest : List Char} (h : ∀ c ∈ rest.head?, c ≠ '.') (p : Position) :
    fraction ⟨rest, p⟩ = .ok (none, ⟨rest, p⟩) := by
  rw [fraction]
  split
  next point =>
    have point : rest = '.' :: _ := point
    rw [point] at h
    exact absurd rfl (h '.' rfl)
  next => rfl

theorem exponent_append {cs : List Char} (negative : Bool) (digit : ∀ c ∈ cs, c.isDigit)
    (nonempty : cs ≠ []) (p : Position) :
    ∃ start, exponent ⟨'e' :: (if negative then '-' else '+') :: cs, p⟩ =
      .ok (some ⟨negative, cs.map digitValue, start⟩, ⟨[], endPlace cs start⟩) := by
  have read (p : Position) : digits cs p = (cs.map digitValue, ⟨[], endPlace cs p⟩) := by
    have append : digits (cs ++ []) p = _ := digits_append digit endsDigits_nil p
    rwa [List.append_nil] at append
  refine ⟨(p.next 'e').next (if negative then '-' else '+'), ?_⟩
  cases negative
  all_goals
    rw [exponent]
    simp only [Input.next, Bool.false_eq_true, if_false, if_true]
    rw [read]
    split
    next same => simp [nonempty] at same
    next same =>
      obtain ⟨rfl, rfl⟩ := Prod.mk.inj same
      rfl

/-- A numeral from behind its sign. -/
def numeralFrom (negative : Bool) (i : Input) : Except Faults (Numeral × Input) := do
  let (whole, i) ← whole i
  let (fraction, i) ← fraction i
  let (exponent, i) ← exponent i
  return (⟨negative, whole, fraction, exponent⟩, i)

theorem numeral_negative (rest : List Char) (p : Position) :
    numeral ⟨'-' :: rest, p⟩ = numeralFrom true ⟨rest, p.next '-'⟩ := rfl

theorem numeral_positive {c : Char} (h : c ≠ '-') (cs : List Char) (p : Position) :
    numeral ⟨c :: cs, p⟩ = numeralFrom false ⟨c :: cs, p⟩ := by
  rw [numeral]
  split
  next same =>
    split at same
    next sign => exact absurd (List.cons.inj sign).1 h
    next =>
      obtain ⟨rfl, rfl⟩ := Prod.mk.inj same
      rfl

/-! ## Written numerals -/

/-- The parts of a numeral as they are written. -/
structure Written where
  negative : Bool
  /-- The digits before the point. -/
  units : List Char
  /-- The digits after the point. -/
  places : Option (List Char)
  /-- The sign and the digits of an exponent. -/
  power : Option (Bool × List Char)

namespace Written

def placesText (w : Written) : List Char :=
  match w.places with
  | none => []
  | some cs => '.' :: cs

def powerText (w : Written) : List Char :=
  match w.power with
  | none => []
  | some (negative, cs) => 'e' :: (if negative then '-' else '+') :: cs

def text (w : Written) : List Char :=
  (if w.negative then ['-'] else []) ++ (w.units ++ (w.placesText ++ w.powerText))

/-- The numeral with these parts. -/
def toNumeral (w : Written) : Numeral :=
  ⟨w.negative, w.units.map digitValue, w.places.map (List.map digitValue),
    w.power.map fun (negative, cs) => ⟨negative, cs.map digitValue, .start⟩⟩

/-- The parts are made of digits, with at least one in each and no superfluous zero in front. -/
structure IsNumeral (w : Written) : Prop where
  units : IsWhole w.units
  places : ∀ cs ∈ w.places, (∀ c ∈ cs, c.isDigit) ∧ cs ≠ []
  power : ∀ e ∈ w.power, (∀ c ∈ e.2, c.isDigit) ∧ e.2 ≠ []

variable {w : Written}

theorem head?_powerText : ∀ c ∈ w.powerText.head?, c = 'e' := by
  rw [powerText]
  split <;> simp

theorem endsDigits_powerText : EndsDigits w.powerText := by
  intro c hc
  rw [head?_powerText c hc]
  rfl

theorem endsDigits_tail : EndsDigits (w.placesText ++ w.powerText) := by
  rw [placesText]
  split
  · exact endsDigits_powerText
  · rintro _ ⟨⟩
    rfl

theorem fraction_tail (h : w.IsNumeral) (p : Position) :
    ∃ q, fraction ⟨w.placesText ++ w.powerText, p⟩ =
      .ok (w.places.map (List.map digitValue), ⟨w.powerText, q⟩) := by
  rw [placesText]
  cases part : w.places with
  | none =>
    refine ⟨p, fraction_none (fun c hc => ?_) p⟩
    rw [head?_powerText c hc]
    decide
  | some cs =>
    obtain ⟨digit, nonempty⟩ := h.places cs part
    exact ⟨_, fraction_append digit nonempty endsDigits_powerText p⟩

theorem exponent_tail (h : w.IsNumeral) (p : Position) :
    ∃ (e : Option NumeralExponent) (q : Position), exponent ⟨w.powerText, p⟩ = .ok (e, ⟨[], q⟩) ∧
      e.map (fun e => (e.negative, e.digits)) =
        w.toNumeral.exponent.map fun e => (e.negative, e.digits) := by
  rw [powerText, toNumeral]
  cases part : w.power with
  | none => exact ⟨none, p, rfl, rfl⟩
  | some e =>
    obtain ⟨digit, nonempty⟩ := h.power e part
    obtain ⟨start, read⟩ := exponent_append e.1 digit nonempty p
    exact ⟨_, _, read, rfl⟩

/-- The number of a numeral does not depend on where its exponent starts. -/
theorem number?_congr {m n : Numeral} (negative : m.negative = n.negative)
    (whole : m.whole = n.whole) (fraction : m.fraction = n.fraction)
    (exponent : m.exponent.map (fun e => (e.negative, e.digits)) =
      n.exponent.map fun e => (e.negative, e.digits)) : m.number? = n.number? := by
  obtain ⟨_, _, _, e⟩ := m
  obtain ⟨_, _, _, e'⟩ := n
  obtain ⟨rfl, rfl, rfl⟩ := And.intro negative (And.intro whole fraction)
  cases e with
  | none =>
    cases e' with
    | none => rfl
    | some => nomatch exponent
  | some e =>
    cases e' with
    | none => nomatch exponent
    | some e' =>
      obtain ⟨same, digits⟩ := Prod.mk.inj (Option.some.inj exponent)
      simp only [Numeral.number?, same, digits, Option.isNone_some]

/-- A written numeral is scanned as such. -/
theorem numeralFrom_text (h : w.IsNumeral) (p : Position) :
    ∃ e q, numeralFrom w.negative ⟨w.units ++ (w.placesText ++ w.powerText), p⟩ =
        .ok (⟨w.negative, w.units.map digitValue, w.places.map (List.map digitValue), e⟩,
          ⟨[], q⟩) ∧
      e.map (fun e => (e.negative, e.digits)) =
        w.toNumeral.exponent.map fun e => (e.negative, e.digits) := by
  obtain ⟨q, fraction⟩ := fraction_tail h (endPlace w.units p)
  obtain ⟨e, r, exponent, same⟩ := exponent_tail h q
  refine ⟨e, r, ?_, same⟩
  simp only [numeralFrom, whole_append h.units endsDigits_tail, bind, Except.bind, fraction,
    exponent]
  rfl

/-- A written numeral is read as such. -/
theorem readNumber?_text (h : w.IsNumeral) : readNumber? w.text = w.toNumeral.number? := by
  obtain ⟨p, signed⟩ : ∃ p, numeral ⟨w.text, .start⟩ =
      numeralFrom w.negative ⟨w.units ++ (w.placesText ++ w.powerText), p⟩ := by
    rw [text]
    cases w.negative with
    | true => exact ⟨_, numeral_negative _ _⟩
    | false =>
      obtain ⟨digit, nonempty, -⟩ := h.units
      match units : w.units with
      | [] => exact absurd units nonempty
      | c :: cs =>
        refine ⟨.start, numeral_positive ?_ _ _⟩
        rintro rfl
        exact absurd (digit '-' (units ▸ List.mem_cons_self)) (by decide)
  obtain ⟨e, q, read, same⟩ := numeralFrom_text h p
  rw [readNumber?, signed, read]
  exact number?_congr rfl rfl rfl same

/-- The power of ten that an exponent asks for. -/
def scale (w : Written) : Int :=
  match w.power with
  | none => 0
  | some (negative, cs) =>
    if negative then -Nat.ofDigitChars 10 cs 0 else Nat.ofDigitChars 10 cs 0

/-- A numeral with a fraction or an exponent is read as the double nearest to a decimal of its
value. -/
theorem readNumber?_eq_double {d : Decimal} (numeral : w.IsNumeral)
    (double : w.places.isSome ∨ w.power.isSome)
    (value : (Nat.ofDigitChars 10 (w.units ++ w.places.getD []) 0 : ℚ) *
      10 ^ (w.scale - (w.places.getD []).length) = d.value) :
    readNumber? w.text = (Magnitude.nearestDecimal d.digits d.exponent).map fun x =>
      .double ⟨w.negative, x⟩ := by
  rw [readNumber?_text numeral]
  obtain ⟨negative, units, places, power⟩ := w
  have digits : (Option.map (List.map digitValue) places).getD [] =
      (places.getD []).map digitValue := by cases places <;> rfl
  rw [← Magnitude.nearestDecimal_congr value]
  have parts : (places.isNone && power.isNone) = false := by
    cases places <;> cases power <;> simp_all
  simp only [toNumeral, Numeral.number?, Option.isNone_map, parts, digits, ← List.map_append,
    digitsValue_map, List.length_map, Bool.false_eq_true, if_false]
  cases power with
  | none => rfl
  | some e => simp only [Option.map_some, digitsValue_map, scale]

end Written

/-! ## Written decimals -/

theorem head?_toDigits {n : Nat} (h : n ≠ 0) : (Nat.toDigits 10 n).head? ≠ some '0' := by
  induction n using Nat.strongRecOn with
  | _ n ih =>
    rw [Nat.toDigits_eq_if (by decide)]
    split
    next small =>
      have digits : ∀ n < 10, n ≠ 0 → Nat.digitChar n ≠ '0' := by decide
      simpa using digits n small h
    next large =>
      rw [List.head?_append_of_ne_nil _ Nat.toDigits_ne_nil]
      exact ih (n / 10) (by omega) (by omega)

theorem isWhole_toDigits (n : Nat) : IsWhole (Nat.toDigits 10 n) := by
  refine ⟨fun c => Nat.isDigit_of_mem_toDigits (by decide) (by decide), Nat.toDigits_ne_nil, ?_⟩
  by_cases zero : n = 0
  · rw [zero]
    exact fun _ => rfl
  · exact fun leading => absurd leading (head?_toDigits zero)

namespace Decimal

variable {d : Decimal}

/-- The digits are the significant ones and zeros. -/
theorem exists_toDigits_eq (d : Decimal) :
    ∃ k, Nat.toDigits 10 d.digits = d.significant ++ List.replicate k '0' := by
  have split := List.takeWhile_append_dropWhile (p := (· == '0'))
    (l := (Nat.toDigits 10 d.digits).reverse)
  have zeros : (Nat.toDigits 10 d.digits).reverse.takeWhile (· == '0') =
      List.replicate ((Nat.toDigits 10 d.digits).reverse.takeWhile (· == '0')).length '0' :=
    List.eq_replicate_iff.2
      ⟨rfl, fun c hc => beq_iff_eq.1 (List.all_eq_true.1 List.all_takeWhile c hc)⟩
  refine ⟨((Nat.toDigits 10 d.digits).reverse.takeWhile (· == '0')).length, ?_⟩
  rw [significant, ← List.reverse_replicate, ← zeros, ← List.reverse_append, split,
    List.reverse_reverse]

theorem isDigit_of_mem_significant {c : Char} (h : c ∈ d.significant) : c.isDigit := by
  obtain ⟨k, digits⟩ := exists_toDigits_eq d
  exact Nat.isDigit_of_mem_toDigits (by decide) (by decide)
    (digits ▸ List.mem_append_left _ h)

theorem significant_ne_nil (h : d.digits ≠ 0) : d.significant ≠ [] := by
  intro empty
  obtain ⟨k, digits⟩ := exists_toDigits_eq d
  rw [empty, List.nil_append] at digits
  have leading := head?_toDigits h
  cases k with
  | zero => exact Nat.toDigits_ne_nil digits
  | succ k => exact leading (digits ▸ rfl)

theorem head?_significant (h : d.digits ≠ 0) : d.significant.head? ≠ some '0' := by
  obtain ⟨k, digits⟩ := exists_toDigits_eq d
  have leading := head?_toDigits h
  rwa [digits, List.head?_append_of_ne_nil _ (significant_ne_nil h)] at leading

/-- The value by the significant digits, of which the first is at the leading position. -/
theorem value_eq (d : Decimal) :
    d.value = Nat.ofDigitChars 10 d.significant 0 *
      10 ^ (d.position + 1 - d.significant.length) := by
  obtain ⟨k, digits⟩ := exists_toDigits_eq d
  have length := congrArg List.length digits
  rw [List.length_append, List.length_replicate] at length
  have number : d.digits = 10 ^ k * Nat.ofDigitChars 10 d.significant 0 := by
    rw [← Nat.ofDigitChars_replicate_zero, ← Nat.ofDigitChars_append, ← digits,
      Nat.ofDigitChars_ten_toDigits]
  have exponent : d.position + 1 - d.significant.length = k + d.exponent := by
    rw [position, length]
    push_cast
    ring
  rw [exponent, zpow_add₀ (by norm_num), zpow_natCast, value]
  conv_lhs => rw [number]
  push_cast
  ring

theorem isDigit_of_mem_zeros {n : Nat} {c : Char} (h : c ∈ List.replicate n '0') : c.isDigit := by
  rw [(List.mem_replicate.1 h).2]
  rfl

theorem isDigit_of_mem_append {a b : List Char} (ha : ∀ c ∈ a, c.isDigit)
    (hb : ∀ c ∈ b, c.isDigit) : ∀ c ∈ a ++ b, c.isDigit := by
  intro c hc
  exact (List.mem_append.1 hc).elim (ha c) (hb c)

/-- A text, with or without a sign before it, is read as the double nearest to a decimal. -/
def ReadsAs (d : Decimal) (text : List Char) : Prop :=
  ∀ negative, readNumber? ((if negative then ['-'] else []) ++ text) =
    (Magnitude.nearestDecimal d.digits d.exponent).map fun x => .double ⟨negative, x⟩

/-- A text made of the parts of a numeral is read as a decimal of the same value. -/
theorem readsAs_written {text : List Char} (w : Written) (parts : w.text = text)
    (unsigned : w.negative = false) (numeral : w.IsNumeral)
    (double : w.places.isSome ∨ w.power.isSome)
    (value : (Nat.ofDigitChars 10 (w.units ++ w.places.getD []) 0 : ℚ) *
      10 ^ (w.scale - (w.places.getD []).length) = d.value) : d.ReadsAs text := by
  intro negative
  have numeral' : ({ w with negative } : Written).IsNumeral :=
    ⟨numeral.units, numeral.places, numeral.power⟩
  rw [← parts, ← Written.readNumber?_eq_double numeral' double value, Written.text, Written.text,
    unsigned]
  rfl

/-- A decimal below one without an exponent: zeros stand between the point and the first digit. -/
theorem readsAs_below (h : d.digits ≠ 0) (below : d.position < 0) : d.ReadsAs d.positional := by
  have digit : ∀ c ∈ d.significant, c.isDigit := fun _ => isDigit_of_mem_significant
  generalize zeros : (-d.position - 1).toNat = n
  have digits : ∀ c ∈ List.replicate n '0' ++ d.significant, c.isDigit :=
    isDigit_of_mem_append (fun _ => isDigit_of_mem_zeros) digit
  have number : Nat.ofDigitChars 10 (['0'] ++ (List.replicate n '0' ++ d.significant)) 0 =
      Nat.ofDigitChars 10 d.significant 0 := by
    rw [Nat.ofDigitChars_append, Nat.ofDigitChars_append, Nat.ofDigitChars_replicate_zero]
    rfl
  have exponent : (0 : Int) - (List.replicate n '0' ++ d.significant).length =
      d.position + 1 - d.significant.length := by
    rw [List.length_append, List.length_replicate]
    omega
  refine readsAs_written
    ⟨false, ['0'], some (List.replicate n '0' ++ d.significant), none⟩ ?_ rfl
    ⟨⟨by simp, by simp, fun _ => rfl⟩, ?_, nofun⟩ (.inl rfl) ?_
  · rw [positional, if_pos below, zeros]
    simp [Written.text, Written.placesText, Written.powerText]
  · rintro _ ⟨⟩
    exact ⟨digits, by simp [significant_ne_nil h]⟩
  · simp only [Option.getD_some, Written.scale, number, exponent, value_eq d]

/-- A whole decimal without an exponent: zeros stand between the last digit and the point. -/
theorem readsAs_whole (h : d.digits ≠ 0) (above : ¬ d.position < 0)
    (whole : d.significant.length ≤ d.position.toNat + 1) : d.ReadsAs d.positional := by
  have digit : ∀ c ∈ d.significant, c.isDigit := fun _ => isDigit_of_mem_significant
  generalize zeros : d.position.toNat + 1 - d.significant.length = n
  have digits : ∀ c ∈ d.significant ++ List.replicate n '0', c.isDigit :=
    isDigit_of_mem_append digit fun _ => isDigit_of_mem_zeros
  have number : Nat.ofDigitChars 10 (d.significant ++ List.replicate n '0' ++ ['0']) 0 =
      10 ^ (n + 1) * Nat.ofDigitChars 10 d.significant 0 := by
    rw [List.append_assoc, Nat.ofDigitChars_append, ← Nat.ofDigitChars_replicate_zero,
      List.replicate_succ']
  have exponent : d.position + 1 - d.significant.length = n := by omega
  refine readsAs_written ⟨false, d.significant ++ List.replicate n '0', some ['0'], none⟩ ?_ rfl
    ⟨⟨digits, by simp [significant_ne_nil h], ?_⟩, ?_, nofun⟩ (.inl rfl) ?_
  · simp [Written.text, Written.placesText, Written.powerText, positional, above, zeros,
      List.take_of_length_le whole, List.drop_of_length_le whole]
  · intro leading
    rw [List.head?_append_of_ne_nil _ (significant_ne_nil h)] at leading
    exact absurd leading (head?_significant h)
  · rintro _ ⟨⟩
    exact ⟨by simp, by simp⟩
  · simp only [Option.getD_some, Written.scale, number, exponent, value_eq d, List.length_singleton]
    push_cast
    rw [zpow_neg_one, zpow_natCast, pow_succ]
    field_simp

/-- A decimal without an exponent that has digits on both sides of the point. -/
theorem readsAs_mixed (h : d.digits ≠ 0) (above : ¬ d.position < 0)
    (mixed : ¬ d.significant.length ≤ d.position.toNat + 1) : d.ReadsAs d.positional := by
  have digit : ∀ c ∈ d.significant, c.isDigit := fun _ => isDigit_of_mem_significant
  generalize units : d.position.toNat + 1 = u at mixed
  have places : d.significant.drop u ≠ [] := by
    rw [Ne, List.drop_eq_nil_iff]
    exact mixed
  have exponent : (0 : Int) - (d.significant.drop u).length =
      d.position + 1 - d.significant.length := by
    rw [List.length_drop]
    omega
  refine readsAs_written ⟨false, d.significant.take u, some (d.significant.drop u), none⟩ ?_ rfl
    ⟨⟨fun c hc => digit c (List.mem_of_mem_take hc), ?_, ?_⟩, ?_, nofun⟩ (.inl rfl) ?_
  · have filled : u - d.significant.length = 0 := by omega
    simp [Written.text, Written.placesText, Written.powerText, positional, above, units, filled,
      places]
  · simp [← units, significant_ne_nil h]
  · intro leading
    rw [List.head?_take, if_neg (by omega)] at leading
    exact absurd leading (head?_significant h)
  · rintro _ ⟨⟩
    exact ⟨fun c hc => digit c (List.mem_of_mem_drop hc), places⟩
  · simp only [Option.getD_some, Written.scale, List.take_append_drop, exponent, value_eq d]

/-- The sign and the digits of an exponent. -/
theorem scale_power (w : Written) (z : Int)
    (power : w.power = some (decide (z < 0), Nat.toDigits 10 z.natAbs)) : w.scale = z := by
  rw [Written.scale, power]
  simp only [Nat.ofDigitChars_ten_toDigits, decide_eq_true_eq]
  split <;> omega

/-- A decimal with an exponent. -/
theorem readsAs_scientific (h : d.digits ≠ 0) : d.ReadsAs d.scientific := by
  have digit : ∀ c ∈ d.significant, c.isDigit := fun _ => isDigit_of_mem_significant
  have power : ∀ e ∈ some (decide (d.position < 0), Nat.toDigits 10 d.position.natAbs),
      (∀ c ∈ e.2, c.isDigit) ∧ e.2 ≠ [] := by
    rintro _ ⟨⟩
    exact ⟨fun _ => Nat.isDigit_of_mem_toDigits (by decide) (by decide), Nat.toDigits_ne_nil⟩
  match digits : d.significant with
  | [] => exact absurd digits (significant_ne_nil h)
  | first :: rest =>
    have whole : IsWhole [first] := by
      rw [digits] at digit
      exact ⟨by simpa using digit first List.mem_cons_self, by simp, by simp⟩
    have value := value_eq d
    rw [digits] at value
    cases rest with
    | nil =>
      refine readsAs_written ⟨false, [first], none, some (d.position < 0, _)⟩ ?_ rfl
        ⟨whole, nofun, power⟩ (.inr rfl) ?_
      · simp [Written.text, Written.placesText, Written.powerText, scientific, digits]
      · rw [scale_power _ d.position rfl, value]
        simp
    | cons second more =>
      refine readsAs_written ⟨false, [first], some (second :: more), some (d.position < 0, _)⟩
        ?_ rfl ⟨whole, ?_, power⟩ (.inl rfl) ?_
      · simp [Written.text, Written.placesText, Written.powerText, scientific, digits]
      · rintro _ ⟨⟩
        rw [digits] at digit
        exact ⟨fun c hc => digit c (List.mem_cons_of_mem _ hc), by simp⟩
      · rw [scale_power _ d.position rfl, value]
        simp only [Option.getD_some, List.singleton_append, List.length_cons]
        congr 2
        push_cast
        ring

/-- The text of a decimal is read as that decimal. -/
theorem readsAs_text (h : d.digits ≠ 0) : d.ReadsAs d.text := by
  rw [text]
  split
  · by_cases below : d.position < 0
    · exact readsAs_below h below
    · by_cases whole : d.significant.length ≤ d.position.toNat + 1
      · exact readsAs_whole h below whole
      · exact readsAs_mixed h below whole
  · exact readsAs_scientific h

end Decimal

/-! ## The texts of numbers -/

theorem readNumber?_integer (i : Int) :
    readNumber? (Number.integer i).text.toList = some (.integer i) := by
  have numeral : (Written.mk (i < 0) (Nat.toDigits 10 i.natAbs) none none).IsNumeral :=
    ⟨isWhole_toDigits _, nofun, nofun⟩
  have text : (Number.integer i).text.toList =
      (Written.mk (i < 0) (Nat.toDigits 10 i.natAbs) none none).text := by
    cases i with
    | ofNat n => simp [Number.text, Written.text, Written.placesText, Written.powerText, toString,
        Int.repr]
    | negSucc n => simp [Number.text, Written.text, Written.placesText, Written.powerText, toString,
        Int.repr]
  rw [text, Written.readNumber?_text numeral]
  simp only [Numeral.number?, Written.toNumeral, Option.map_none, Option.getD_none,
    List.append_nil, digitsValue_map, Nat.ofDigitChars_ten_toDigits, Option.isNone_none,
    Bool.and_self, if_true, decide_eq_true_eq]
  congr 2
  split <;> omega

theorem readNumber?_double {x : Binary64} (canonical : x.magnitude.Canonical) :
    readNumber? (Number.double x).text.toList = some (.double x) := by
  obtain ⟨negative, m⟩ := x
  rw [Number.text, Binary64.text, String.toList_ofList]
  by_cases zero : m.mantissa = 0
  · have same : m = Magnitude.zero := by
      obtain ⟨-, -, -, normal⟩ := canonical
      obtain ⟨mantissa, exponent⟩ := m
      obtain rfl : mantissa = 0 := zero
      obtain large | rfl := normal
      · nomatch large
      · rfl
    rw [same]
    cases negative <;> decide +kernel
  · have nonzero : m.isZero = false := by simpa [Magnitude.isZero] using zero
    have read := Decimal.readsAs_text (Magnitude.digits_shortest_ne_zero canonical zero) negative
    rw [Magnitude.nearestDecimal_shortest canonical zero, Option.map_some] at read
    simp only [nonzero, Bool.false_eq_true, if_false]
    rw [← read]
    cases negative <;> rfl

/-- The text of a number is read as that number. -/
theorem readNumber?_text {n : Number} (proper : n.Proper) :
    readNumber? n.text.toList = some n := by
  cases n with
  | integer i => exact readNumber?_integer i
  | double x => exact readNumber?_double proper

end SchemaCompiler
