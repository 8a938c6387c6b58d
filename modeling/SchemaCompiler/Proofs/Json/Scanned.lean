import SchemaCompiler.Json.Scan
import SchemaCompiler.Proofs.Json.Places

/-!
# What a scan leaves of the text

A scan takes characters off the front of the text and leaves the rest, and the document it gives
has a fault in its outline exactly if the scan stops at it (`scan_within`). So a text whose
document is in order as far as its outline goes is a value followed by what the scan has left.
-/

namespace SchemaCompiler

/-- Of a scan of the input `i`, the fault that a reader meets who skips what has been scanned, and
what the scan has come to: without a fault, what is left is an end of the input. -/
def Within (i : Input) (fault : Option (Fault Position)) : Except Faults Input → Prop
  | .ok j => fault = none ∧ j.rest <:+ i.rest
  | .error f => fault = some f.2

theorem Within.mono {i j : Input} {fault : Option (Fault Position)} {r : Except Faults Input}
    (h : Within j fault r) (le : j.rest <:+ i.rest) : Within i fault r := by
  cases r with
  | ok k => exact ⟨h.1, h.2.trans le⟩
  | error f => exact h

/-! ## Blanks, literals and numerals -/

theorem pastBlanks_suffix (cs : List Char) (p : Position) :
    (Input.pastBlanks cs p).rest <:+ cs := by
  induction cs generalizing p with
  | nil => exact List.suffix_refl _
  | cons c rest ih =>
    rw [Input.pastBlanks]
    split
    · exact (ih _).trans (List.suffix_cons _ _)
    · exact List.suffix_refl _

theorem Input.skipBlanks_suffix (i : Input) : i.skipBlanks.rest <:+ i.rest :=
  pastBlanks_suffix i.rest i.place

/-- What follows the next character after blanks. -/
theorem Input.suffix_of_skipBlanks {i : Input} {c : Char} {rest : List Char}
    (h : i.skipBlanks.rest = c :: rest) : rest <:+ i.rest :=
  (List.suffix_cons c rest).trans (h ▸ i.skipBlanks_suffix)

theorem literal_suffix {expected : List Char} {i j : Input} (h : literal expected i = .ok j) :
    j.rest <:+ i.rest := by
  induction expected generalizing i with
  | nil =>
    obtain rfl := Except.ok.inj h
    exact List.suffix_refl _
  | cons e expected ih =>
    rw [literal] at h
    split at h
    next => nomatch h
    next c rest next =>
      split at h
      · exact (ih h).trans (next ▸ List.suffix_cons c rest)
      · nomatch h

theorem digits_suffix {cs : List Char} {p : Position} {ds : List Nat} {j : Input}
    (h : digits cs p = (ds, j)) : j.rest <:+ cs := by
  induction cs generalizing p ds with
  | nil =>
    obtain ⟨-, rfl⟩ := Prod.mk.inj h
    exact List.suffix_refl _
  | cons c rest ih =>
    rw [digits] at h
    split at h
    · obtain ⟨-, rfl⟩ := Prod.mk.inj h
      exact (ih rfl).trans (List.suffix_cons _ _)
    · obtain ⟨-, rfl⟩ := Prod.mk.inj h
      exact List.suffix_refl _

theorem whole_suffix {i j : Input} {ds : List Nat} (h : whole i = .ok (ds, j)) :
    j.rest <:+ i.rest := by
  rw [whole] at h
  split at h
  next => nomatch h
  next => nomatch h
  next taken =>
    obtain ⟨-, rfl⟩ := Prod.mk.inj (Except.ok.inj h)
    exact digits_suffix taken

theorem fraction_suffix {i j : Input} {ds : Option (List Nat)} (h : fraction i = .ok (ds, j)) :
    j.rest <:+ i.rest := by
  rw [fraction] at h
  split at h
  next rest point =>
    dsimp only at h
    split at h
    next => nomatch h
    next taken =>
      obtain ⟨-, rfl⟩ := Prod.mk.inj (Except.ok.inj h)
      exact point ▸ (digits_suffix taken).trans (List.suffix_cons _ _)
  next =>
    obtain ⟨-, rfl⟩ := Prod.mk.inj (Except.ok.inj h)
    exact List.suffix_refl _

/-- The input after the sign of an exponent, if there is one. -/
theorem exponentSign_suffix (j : Input) :
    (match j.rest with
      | '+' :: rest => (false, j.next '+' rest)
      | '-' :: rest => (true, j.next '-' rest)
      | _ => (false, j) : Bool × Input).2.rest <:+ j.rest := by
  split
  next sign => exact sign ▸ List.suffix_cons _ _
  next sign => exact sign ▸ List.suffix_cons _ _
  next => exact List.suffix_refl _

/-- The input after the letter of an exponent. -/
theorem exponentMark_suffix {i k : Input} (h : (match i.rest with
      | 'e' :: rest => some (i.next 'e' rest)
      | 'E' :: rest => some (i.next 'E' rest)
      | _ => none) = some k) : k.rest <:+ i.rest := by
  split at h
  next mark => exact Option.some.inj h ▸ mark ▸ List.suffix_cons _ _
  next mark => exact Option.some.inj h ▸ mark ▸ List.suffix_cons _ _
  next => cases h

theorem exponent_suffix {i j : Input} {e : Option NumeralExponent} (h : exponent i = .ok (e, j)) :
    j.rest <:+ i.rest := by
  rw [exponent] at h
  dsimp only at h
  split at h
  next =>
    obtain ⟨-, rfl⟩ := Prod.mk.inj (Except.ok.inj h)
    exact List.suffix_refl _
  next k mark =>
    split at h
    next => cases h
    next taken =>
      obtain ⟨-, rfl⟩ := Prod.mk.inj (Except.ok.inj h)
      exact (digits_suffix taken).trans ((exponentSign_suffix k).trans (exponentMark_suffix mark))

/-- The input after the sign of a numeral, if there is one. -/
theorem numeralSign_suffix (i : Input) :
    (match i.rest with
      | '-' :: rest => (true, i.next '-' rest)
      | _ => (false, i) : Bool × Input).2.rest <:+ i.rest := by
  split
  next sign => exact sign ▸ List.suffix_cons _ _
  next => exact List.suffix_refl _

theorem numeral_suffix {i j : Input} {n : Numeral} (h : numeral i = .ok (n, j)) :
    j.rest <:+ i.rest := by
  rw [numeral] at h
  obtain ⟨⟨_, a⟩, ha, h⟩ := except_bind_eq_ok h
  obtain ⟨⟨_, b⟩, hb, h⟩ := except_bind_eq_ok h
  obtain ⟨⟨_, c⟩, hc, h⟩ := except_bind_eq_ok h
  obtain ⟨-, rfl⟩ := Prod.mk.inj (Except.ok.inj h)
  have unsigned := (whole_suffix ha).trans (numeralSign_suffix i)
  exact (exponent_suffix hc).trans ((fraction_suffix hb).trans unsigned)

/-! ## Strings -/

theorem skipString_suffix {cs : List Char} {p : Position} {j : Input}
    (h : skipString cs p = .ok j) : j.rest <:+ cs := by
  fun_induction skipString cs p with
  | case2 rest p =>
    obtain rfl := Except.ok.inj h
    exact List.suffix_cons _ _
  | case5 _ _ _ a b c d _ _ _ ih => exact (ih h).trans ⟨['\\', 'u', a, b, c, d], rfl⟩
  | case7 _ _ e _ _ _ _ ih => exact (ih h).trans ⟨['\\', e], rfl⟩
  | case10 c _ _ _ _ _ ih => exact (ih h).trans (List.suffix_cons _ _)
  | case1 | case3 | case4 | case6 | case8 | case9 => nomatch h

theorem stringToken_suffix {i j : Input} {read : Except (Fault Position) String}
    (h : stringToken i = .ok (read, j)) : j.rest <:+ i.rest := by
  rw [stringToken] at h
  split at h
  next skipped =>
    obtain ⟨-, rfl⟩ := Prod.mk.inj (Except.ok.inj h)
    exact skipString_suffix skipped
  next =>
    split at h
    · nomatch h
    · nomatch h

/-! ## Values -/

abbrev ValueWithin (i : Input) (s : Scanned (Document Position)) : Prop :=
  Within i s.1.outlineFault? s.2

abbrev ElementsWithin (i : Input) (s : Scanned (Elements Position)) : Prop :=
  Within i s.1.outlineFault? s.2

abbrev MembersWithin (i : Input) (s : Scanned (Members Position)) : Prop :=
  Within i s.1.outlineFault? s.2

theorem valueWithin_broken (i j : Input) (f : Faults) : ValueWithin i (brokenValue j f) := rfl

theorem elementsWithin_broken (i : Input) (f : Faults) : ElementsWithin i (brokenElements f) := rfl

theorem membersWithin_broken (i : Input) (f : Faults) : MembersWithin i (brokenMembers f) := rfl

theorem valueWithin_scalar {α : Type} {i j : Input} {make : α → Token Position → Document Position}
    {r : Except Faults (α × Input)} (sound : ∀ a t, (make a t).outlineFault? = none)
    (left : ∀ a k, r = .ok (a, k) → k.rest <:+ i.rest) : ValueWithin i (scalar j make r) :=
  match r, left with
  | .error f, _ => valueWithin_broken i j f
  | .ok (a, k), left => ⟨sound a _, left a k rfl⟩

theorem valueWithin_literal {i j k : Input} {expected : List Char}
    {make : Unit → Token Position → Document Position}
    (sound : ∀ a t, (make a t).outlineFault? = none) (le : k.rest <:+ i.rest) :
    ValueWithin i (scalar j make ((literal expected k).map ((), ·))) := by
  refine valueWithin_scalar sound fun a _ h => ?_
  obtain ⟨_, literal, eq⟩ := except_map_eq_ok h
  obtain ⟨-, rfl⟩ := Prod.mk.inj eq
  exact (literal_suffix literal).trans le

mutual

theorem scanValue_within : (fuel depth : Nat) → (i : Input) →
    ValueWithin i (scanValue fuel depth i)
  | 0, _, i => by
    rw [scanValue]
    exact valueWithin_broken _ _ _
  | fuel + 1, depth, i => by
    rw [scanValue]
    dsimp only
    split
    next => exact valueWithin_broken _ _ _
    next c rest next =>
      have le := Input.suffix_of_skipBlanks next
      have here := i.skipBlanks_suffix
      split_ifs with null true false numeral string array object
      · exact valueWithin_literal (fun _ _ => rfl) le
      · exact valueWithin_literal (fun _ _ => rfl) le
      · exact valueWithin_literal (fun _ _ => rfl) le
      · refine valueWithin_scalar (fun _ _ => rfl) fun _ _ h => ?_
        obtain ⟨_, read, eq⟩ := except_map_eq_ok h
        obtain ⟨-, rfl⟩ := Prod.mk.inj eq
        exact (numeral_suffix read).trans here
      · exact valueWithin_scalar (fun _ _ => rfl) fun _ _ h => (stringToken_suffix h).trans le
      · exact (scanElements_within fuel (depth + 1) _).mono le
      · exact (scanMembers_within fuel (depth + 1) _).mono le
      · exact valueWithin_broken _ _ _

theorem scanElements_within : (fuel depth : Nat) → (i : Input) →
    ElementsWithin i (scanElements fuel depth i)
  | 0, _, i => by
    rw [scanElements]
    exact elementsWithin_broken _ _
  | fuel + 1, depth, i => by
    rw [scanElements]
    split
    next => exact elementsWithin_broken _ _
    next c rest next =>
      split
      · exact ⟨rfl, Input.suffix_of_skipBlanks next⟩
      · exact (scanElement_within fuel depth _).mono i.skipBlanks_suffix

theorem scanElement_within : (fuel depth : Nat) → (i : Input) →
    ElementsWithin i (scanElement fuel depth i)
  | 0, _, i => by
    rw [scanElement]
    exact elementsWithin_broken _ _
  | fuel + 1, depth, i => by
    have first := scanValue_within fuel depth i
    rw [scanElement]
    dsimp only
    split
    next f stopped =>
      rw [ValueWithin, stopped, Within] at first
      rw [ElementsWithin, Elements.outlineFault?, first]
      rfl
    next j more =>
      rw [ValueWithin, more, Within] at first
      rw [ElementsWithin, Elements.outlineFault?, first.1, Option.orElse_eq_orElse,
        Option.orElse_eq_or, Option.none_or]
      refine Within.mono ?_ first.2
      split
      next => exact elementsWithin_broken _ _
      next c rest next =>
        have le := Input.suffix_of_skipBlanks next
        split_ifs
        · exact ⟨rfl, le⟩
        · split
          next => exact elementsWithin_broken _ _
          next =>
            exact (scanElement_within fuel depth _).mono ((Input.skipBlanks_suffix _).trans le)
        · exact elementsWithin_broken _ _

theorem scanMembers_within : (fuel depth : Nat) → (i : Input) →
    MembersWithin i (scanMembers fuel depth i)
  | 0, _, i => by
    rw [scanMembers]
    exact membersWithin_broken _ _
  | fuel + 1, depth, i => by
    rw [scanMembers]
    split
    next => exact membersWithin_broken _ _
    next c rest next =>
      have le := Input.suffix_of_skipBlanks next
      split_ifs
      · exact ⟨rfl, le⟩
      · exact (scanMember_within fuel depth _).mono le
      · exact membersWithin_broken _ _

theorem scanMember_within : (fuel depth : Nat) → (i : Input) →
    MembersWithin i (scanMember fuel depth i)
  | 0, _, i => by
    rw [scanMember]
    exact membersWithin_broken _ _
  | fuel + 1, depth, i => by
    rw [scanMember]
    split
    next => exact membersWithin_broken _ _
    next name k read =>
      have named := stringToken_suffix read
      dsimp only
      rcases next : k.skipBlanks.rest with _ | ⟨c, rest⟩
      · rfl
      dsimp only
      by_cases colon : c = ':'
      case neg =>
        simp only [colon, if_false]
        rfl
      have valued := (scanValue_within fuel depth (k.skipBlanks.next c rest)).mono
        ((Input.suffix_of_skipBlanks next).trans named)
      simp only [colon, if_true] at valued ⊢
      split
      next f stopped =>
        rw [stopped, Within] at valued
        rw [MembersWithin, Members.outlineFault?, valued]
        rfl
      next j more =>
        rw [more, Within] at valued
        rw [MembersWithin, Members.outlineFault?, valued.1, Option.orElse_eq_orElse,
          Option.orElse_eq_or, Option.none_or]
        refine Within.mono ?_ valued.2
        split
        next => exact membersWithin_broken _ _
        next c rest next =>
          have le := Input.suffix_of_skipBlanks next
          split_ifs
          · exact ⟨rfl, le⟩
          · split
            next => exact membersWithin_broken _ _
            next c rest further =>
              have le := (Input.suffix_of_skipBlanks further).trans le
              split_ifs
              · exact (scanMember_within fuel depth _).mono le
              · exact membersWithin_broken _ _
              · exact membersWithin_broken _ _
          · exact membersWithin_broken _ _

end

/-! ## Texts -/

theorem scan_within (text : String) : ValueWithin ⟨text.toList, .start⟩ (scan text) :=
  scanValue_within _ 0 _

/-- A text whose document has a sound outline is a value followed by what the scan has left. -/
theorem scan_eq_ok {text : String} (sound : (Document.ofText text).outlineFault? = none) :
    ∃ i, (scan text).2 = .ok i ∧ i.rest <:+ text.toList := by
  have within := scan_within text
  rw [Document.ofText] at sound
  rw [ValueWithin, sound] at within
  cases scanned : (scan text).2 with
  | error f =>
    rw [scanned] at within
    nomatch within
  | ok i =>
    rw [scanned] at within
    exact ⟨i, rfl, within.2⟩

theorem pastBlanks_eq_nil {cs : List Char} {p : Position} :
    (Input.pastBlanks cs p).rest = [] ↔ ∀ c ∈ cs, Input.isBlank c := by
  induction cs generalizing p with
  | nil => simp [Input.pastBlanks]
  | cons c rest ih =>
    rw [Input.pastBlanks, List.forall_mem_cons]
    split
    next blank => rw [ih, iff_and_self]; exact fun _ => blank
    next solid => simp [solid]

theorem trailingFault?_eq_none {i : Input} :
    trailingFault? (.ok i) = none ↔ ∀ c ∈ i.rest, Input.isBlank c := by
  rw [← pastBlanks_eq_nil (p := i.place), trailingFault?]
  simp [Input.skipBlanks]

/-- A text is one JSON value and nothing else if its document is a value throughout and only blanks
follow. -/
theorem ofText_eq_ok_iff {text : String} {i : Input} (scanned : (scan text).2 = .ok i) :
    (∃ v, Json.ofText text = .ok v) ↔
      (∃ v, (Document.ofText text).toJson = .ok v) ∧ ∀ c ∈ i.rest, Input.isBlank c := by
  rw [Json.ofText, readWhole, ← trailingFault?_eq_none, Document.ofText]
  dsimp only
  rw [scanned]
  cases (scan text).1.toJson with
  | error f => exact ⟨fun ⟨_, h⟩ => (nomatch h), fun ⟨⟨_, h⟩, _⟩ => (nomatch h)⟩
  | ok v =>
    cases trailingFault? (.ok i) with
    | none => exact ⟨fun _ => ⟨⟨v, rfl⟩, rfl⟩, fun _ => ⟨v, rfl⟩⟩
    | some f => exact ⟨fun ⟨_, h⟩ => (nomatch h), fun ⟨_, h⟩ => (nomatch h)⟩

end SchemaCompiler
