import SchemaCompiler.Json.Scan
import SchemaCompiler.Proofs.Json.Places
import SchemaCompiler.Proofs.Json.Proper

/-!
# Values of texts are proper

Every number that is read from a text is one of 64 bits: an integer is taken from a significand that
is kept below `2 ^ 64`, and a double comes out of a rounding (`Numeral.proper_of_value`). A scan
puts no other numbers into a document, and an object keeps one member for each name, so every value
that is read from a text is proper (`Json.proper_ofText`).
-/

namespace SchemaCompiler

/-! ## Doubles -/

namespace Magnitude

variable {x y z : Magnitude}

theorem canonical_zero : zero.Canonical := by decide

theorem canonical_mul (h : x.mul y = some z) : z.Canonical :=
  nearest_canonical (scaledDenominator_pos Nat.one_pos _) h

theorem canonical_div (hy : 0 < y.mantissa) (h : x.div y = some z) : z.Canonical :=
  nearest_canonical (scaledDenominator_pos hy _) h

theorem canonical_getD {n d : Nat} (hd : 0 < d) : ((nearest n d).getD zero).Canonical := by
  cases h : nearest n d with
  | none => exact canonical_zero
  | some x => exact nearest_canonical hd h

end Magnitude

namespace Numeral

open Magnitude

theorem powerOfTen_pos {k : Nat} (h : k ≤ 308) : 0 < (powerOfTen k).mantissa := by
  have all : ∀ k ≤ 308, 0 < (powerOfTen k).mantissa := by decide +kernel
  exact all k h

theorem canonical_scale {s : Nat} {e : Int} {x : Magnitude} (h : scale s e = some x) :
    x.Canonical := by
  obtain ⟨y, nearest, h⟩ := Option.bind_eq_some_iff.1 h
  have hy : y.Canonical := nearest_canonical Nat.one_pos nearest
  dsimp only at h
  split_ifs at h with up small zero
  · exact canonical_mul h
  · exact Option.some.inj h ▸ hy
  · obtain ⟨z, -, h⟩ := Option.bind_eq_some_iff.1 h
    refine canonical_div (powerOfTen_pos ?_) h
    omega

/-! ## Numbers -/

theorem gatherWhole_lt {s : Nat} (h : s < 2 ^ 64) (ds : List Nat) :
    (gatherWhole s ds).1 < 2 ^ 64 := by
  induction ds generalizing s with
  | nil => exact h
  | cons d ds ih =>
    rw [gatherWhole]
    split
    next below => exact ih below
    next => exact h

theorem gatherFraction_lt {s : Nat} (h : s < 2 ^ 64) (ds : List Nat) :
    (gatherFraction s ds).1 < 2 ^ 64 := by
  induction ds generalizing s with
  | nil => exact h
  | cons d ds ih =>
    rw [gatherFraction]
    split
    next below => exact ih below
    next => exact h

theorem proper_integer (negative : Bool) {n : Nat} (h : n < 2 ^ 64) :
    (integer negative n).Proper := by
  rw [integer]
  split
  next => exact ⟨by omega, by omega⟩
  next =>
    split
    next => exact canonical_getD Nat.one_pos
    next small =>
      rw [not_or, Nat.not_lt, Nat.pow_eq] at small
      exact ⟨by omega, by omega⟩

theorem proper_double {negative : Bool} {s : Nat} {e : Int} {place : Position} {n : Number}
    (h : double negative s e place = .ok n) : n.Proper := by
  rw [double] at h
  split at h
  next scaled =>
    obtain rfl := Except.ok.inj h
    exact canonical_scale scaled
  next => nomatch h

/-- The value of a numeral is an integer of at most 64 bits or a double. -/
theorem proper_of_value {n : Numeral} {place : Position} {m : Number} (h : n.value place = .ok m) :
    m.Proper := by
  rw [value] at h
  have whole := gatherWhole_lt (s := 0) (by decide) n.whole
  dsimp only at h
  generalize gatherWhole 0 n.whole = w at h whole
  have fraction := gatherFraction_lt whole (n.fraction.getD [])
  generalize gatherFraction w.1 (n.fraction.getD []) = f at h fraction
  split at h
  next =>
    split at h
    next =>
      obtain rfl := Except.ok.inj h
      exact proper_integer _ fraction
    next => exact proper_double h
  next =>
    split at h
    next => exact proper_double h
    next =>
      split at h
      next => nomatch h
      next =>
        obtain rfl := Except.ok.inj h
        exact canonical_zero

end Numeral

/-! ## Documents -/

variable {P : Type}

mutual

/-- Every number in the document is proper. -/
def Document.NumbersProper : Document P → Prop
  | .number n _ => ∀ m, n = .ok m → m.Proper
  | .array _ elements => elements.NumbersProper
  | .object _ members => members.NumbersProper
  | _ => True

def Elements.NumbersProper : Elements P → Prop
  | .cons first rest => first.NumbersProper ∧ rest.NumbersProper
  | _ => True

def Members.NumbersProper : Members P → Prop
  | .cons _ _ value _ rest => value.NumbersProper ∧ rest.NumbersProper
  | _ => True

end

mutual

/-- The value of a document is proper if the numbers in it are. -/
theorem Document.proper_of_toJson : (d : Document P) → {v : Json} → d.NumbersProper →
    d.toJson = .ok v → v.proper
  | .null _, _, _, h => Except.ok.inj h ▸ rfl
  | .bool _ _, _, _, h => Except.ok.inj h ▸ rfl
  | .number n _, _, proper, h => by
    obtain ⟨m, read, rfl⟩ := except_map_eq_ok h
    exact decide_eq_true (proper m read)
  | .string _ _, _, _, h => by
    obtain ⟨_, -, rfl⟩ := except_map_eq_ok h
    rfl
  | .array b es, _, proper, h => by
    rw [Document.toJson] at h
    split at h
    next => nomatch h
    next =>
      obtain ⟨xs, read, rfl⟩ := except_map_eq_ok h
      exact Json.eachProper_iff.2 (Elements.proper_of_toJson es proper read)
  | .object b ms, _, proper, h => by
    rw [Document.toJson] at h
    split at h
    next => nomatch h
    next =>
      obtain ⟨members, read, rfl⟩ := except_map_eq_ok h
      obtain ⟨nodup, sub⟩ := distinctMembers_spec members
      have each := Members.proper_of_toJson ms proper read
      rw [Json.ofMembers, Json.proper, Bool.and_eq_true, decide_eq_true_eq, Json.membersProper_iff]
      exact ⟨nodup, fun m hm => each m (sub hm)⟩

theorem Elements.proper_of_toJson : (es : Elements P) → {xs : List Json} → es.NumbersProper →
    es.toJson = .ok xs → ∀ x ∈ xs, x.proper
  | .close, _, _, h => Except.ok.inj h ▸ nofun
  | .cons d es, _, proper, h => by
    rw [Elements.toJson] at h
    obtain ⟨x, first, h⟩ := except_bind_eq_ok h
    obtain ⟨xs, rest, h⟩ := except_bind_eq_ok h
    obtain rfl := Except.ok.inj h
    exact List.forall_mem_cons.2 ⟨Document.proper_of_toJson d proper.1 first,
      Elements.proper_of_toJson es proper.2 rest⟩

theorem Members.proper_of_toJson : (ms : Members P) → {members : List (String × Json)} →
    ms.NumbersProper → ms.toJson = .ok members → ∀ m ∈ members, m.2.proper
  | .close, _, _, h => Except.ok.inj h ▸ nofun
  | .cons name _ d _ ms, _, proper, h => by
    obtain ⟨k, x, more, -, value, rest, rfl⟩ := Members.toJson_cons h
    exact List.forall_mem_cons.2 ⟨Document.proper_of_toJson d proper.1 value,
      Members.proper_of_toJson ms proper.2 rest⟩

end

/-! ## Texts -/

theorem numbersProper_scalar {α : Type} {i : Input} {make : α → Token Position → Document Position}
    {r : Except Faults (α × Input)} (h : ∀ a j t, r = .ok (a, j) → (make a t).NumbersProper) :
    (scalar i make r).1.NumbersProper :=
  match r, h with
  | .error _, _ => trivial
  | .ok (a, j), h => h a j _ rfl

theorem numbersProper_numeral {i j : Input} :
    (scalar j .number ((numeral i).map fun (n, j) => (n.value j.place, j))).1.NumbersProper := by
  refine numbersProper_scalar fun read k _ h m value => ?_
  obtain ⟨n, -, eq⟩ := except_map_eq_ok h
  obtain ⟨rfl, -⟩ := Prod.mk.inj eq
  exact Numeral.proper_of_value value

mutual

theorem numbersProper_scanValue : (fuel depth : Nat) → (i : Input) →
    (scanValue fuel depth i).1.NumbersProper
  | 0, _, _ => by
    rw [scanValue]
    trivial
  | fuel + 1, depth, i => by
    rw [scanValue]
    dsimp only
    split
    next => trivial
    next c rest _ =>
      split_ifs
      · exact numbersProper_scalar fun _ _ _ _ => trivial
      · exact numbersProper_scalar fun _ _ _ _ => trivial
      · exact numbersProper_scalar fun _ _ _ _ => trivial
      · exact numbersProper_numeral
      · exact numbersProper_scalar fun _ _ _ _ => trivial
      · exact numbersProper_scanElements fuel (depth + 1) _
      · exact numbersProper_scanMembers fuel (depth + 1) _
      · trivial

theorem numbersProper_scanElements : (fuel depth : Nat) → (i : Input) →
    (scanElements fuel depth i).1.NumbersProper
  | 0, _, _ => by
    rw [scanElements]
    trivial
  | fuel + 1, depth, i => by
    rw [scanElements]
    split
    next => trivial
    next =>
      split
      · trivial
      · exact numbersProper_scanElement fuel depth _

theorem numbersProper_scanElement : (fuel depth : Nat) → (i : Input) →
    (scanElement fuel depth i).1.NumbersProper
  | 0, _, _ => by
    rw [scanElement]
    trivial
  | fuel + 1, depth, i => by
    rw [scanElement]
    dsimp only
    refine ⟨numbersProper_scanValue fuel depth i, ?_⟩
    split
    next => trivial
    next =>
      split
      next => trivial
      next =>
        split_ifs
        · trivial
        · split
          next => trivial
          next => exact numbersProper_scanElement fuel depth _
        · trivial

theorem numbersProper_scanMembers : (fuel depth : Nat) → (i : Input) →
    (scanMembers fuel depth i).1.NumbersProper
  | 0, _, _ => by
    rw [scanMembers]
    trivial
  | fuel + 1, depth, i => by
    rw [scanMembers]
    split
    next => trivial
    next =>
      split_ifs
      · trivial
      · exact numbersProper_scanMember fuel depth _
      · trivial

theorem numbersProper_scanMember : (fuel depth : Nat) → (i : Input) →
    (scanMember fuel depth i).1.NumbersProper
  | 0, _, _ => by
    rw [scanMember]
    trivial
  | fuel + 1, depth, i => by
    rw [scanMember]
    split
    next => trivial
    next name k read =>
      dsimp only
      rcases k.skipBlanks.rest with _ | ⟨c, rest⟩
      · exact ⟨trivial, trivial⟩
      dsimp only
      have valued := numbersProper_scanValue fuel depth (k.skipBlanks.next c rest)
      by_cases colon : c = ':'
      case neg =>
        simp only [colon, if_false]
        exact ⟨trivial, trivial⟩
      simp only [colon, if_true] at valued ⊢
      split
      next => exact ⟨valued, trivial⟩
      next =>
        refine ⟨valued, ?_⟩
        split
        next => trivial
        next =>
          split_ifs
          · trivial
          · split
            next => trivial
            next =>
              split_ifs
              · exact numbersProper_scanMember fuel depth _
              · trivial
              · trivial
          · trivial

end

/-- The value of a text is proper. -/
theorem Json.proper_ofText {text : String} {v : Json} (h : Json.ofText text = .ok v) :
    v.proper := by
  rw [Json.ofText, readWhole] at h
  obtain ⟨w, read, h⟩ := except_bind_eq_ok h
  have proper : w.proper :=
    Document.proper_of_toJson _ (numbersProper_scanValue _ 0 _) read
  split at h
  next => exact Except.ok.inj h ▸ proper
  next => nomatch h

end SchemaCompiler
