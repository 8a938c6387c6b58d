import Mathlib.Data.List.Nodup
import Mathlib.Data.List.Perm.Subperm
import SchemaCompiler.NameSupply

/-!
# A supply does not repeat itself

The candidates for a base differ from each other (`candidate_inj`), so of `k + 1` candidates one is
not among `k` taken names. This is why the search for a free name may stop after as many tries as
there are taken names: `free_not_mem_taken`. Names that are allocated one after the other are
therefore distinct (`nodup_allocateAll`), and none of them was taken before.
-/

namespace SchemaCompiler

namespace NameSupply

variable {taken : List String} {base name : String} {n tries : Nat}

/-! ## Free names -/

theorem suffixed_ne (base : String) (n : Nat) : base ++ "_" ++ toString n ≠ base := by
  intro h
  have length := congrArg String.length h
  rw [String.length_append, String.length_append] at length
  have underscore : "_".length = 1 := rfl
  omega

theorem toString_inj {m n : Nat} (h : toString m = toString n) : m = n := by
  rw [Nat.toString_eq_repr, Nat.toString_eq_repr] at h
  have digits := congrArg String.toList h
  rw [Nat.toList_repr, Nat.toList_repr] at digits
  have values := congrArg (fun ds => Nat.ofDigitChars 10 ds 0) digits
  rwa [Nat.ofDigitChars_toDigits (by decide) (by decide),
    Nat.ofDigitChars_toDigits (by decide) (by decide)] at values

theorem candidate_inj {m : Nat} (hm : 1 ≤ m) (hn : 1 ≤ n)
    (h : candidate base m = candidate base n) : m = n := by
  unfold candidate at h
  by_cases first : m ≤ 1
  · by_cases first' : n ≤ 1
    · omega
    · rw [if_pos first, if_neg first'] at h
      exact absurd h.symm (suffixed_ne base n)
  · by_cases first' : n ≤ 1
    · rw [if_neg first, if_pos first'] at h
      exact absurd h (suffixed_ne base m)
    · rw [if_neg first, if_neg first'] at h
      have numerals : toString m = toString n := by
        have := congrArg String.toList h
        rw [String.toList_append, String.toList_append (s := base ++ "_")] at this
        exact String.toList_inj.1 (List.append_cancel_left this)
      exact toString_inj numerals

/-- The first free candidate is free if there are more candidates up to the last try than taken
names. -/
theorem firstFree_not_mem (hn : 1 ≤ n) (enough : taken.length < n + tries)
    (before : ∀ m, 1 ≤ m → m < n → candidate base m ∈ taken) :
    firstFree taken base n tries ∉ taken := by
  induction tries generalizing n with
  | zero =>
    intro mem
    -- Otherwise the first `n` candidates, which are distinct, are all taken.
    have distinct : ((List.range' 1 n).map (candidate base)).Nodup := by
      refine List.Nodup.map_on (fun i hi j hj h => ?_) List.nodup_range'
      rw [List.mem_range'_1] at hi hj
      exact candidate_inj hi.1 hj.1 h
    have all : (List.range' 1 n).map (candidate base) ⊆ taken := by
      intro name hname
      obtain ⟨m, hm, rfl⟩ := List.mem_map.1 hname
      rw [List.mem_range'_1] at hm
      by_cases last : m = n
      · rw [last]
        exact mem
      · exact before m hm.1 (by omega)
    have length := (List.subperm_of_subset distinct all).length_le
    rw [List.length_map, List.length_range'] at length
    omega
  | succ tries ih =>
    unfold firstFree
    split
    next isTaken =>
      refine ih (by omega) (by omega) fun m hm lt => ?_
      by_cases last : m = n
      · rw [last]
        simpa using isTaken
      · exact before m hm (by omega)
    next isFree => simpa using isFree

theorem free_not_mem_taken (s : NameSupply) (base : String) : s.free base ∉ s.taken :=
  firstFree_not_mem (Nat.le_refl 1) (by omega) fun m hm lt => by omega

/-! ## Several names -/

theorem allocateAll_cons (s : NameSupply) (base : String) (bases : List String) :
    s.allocateAll (base :: bases) =
      (s.free base :: ((s.allocate base).2.allocateAll bases).1,
        ((s.allocate base).2.allocateAll bases).2) := rfl

theorem length_allocateAll (s : NameSupply) (bases : List String) :
    (s.allocateAll bases).1.length = bases.length := by
  induction bases generalizing s with
  | nil => rfl
  | cons base bases ih => rw [allocateAll_cons, List.length_cons, ih, List.length_cons]

theorem mem_taken_allocateAll (s : NameSupply) (bases : List String) :
    name ∈ (s.allocateAll bases).2.taken ↔ name ∈ (s.allocateAll bases).1 ∨ name ∈ s.taken := by
  induction bases generalizing s with
  | nil => simp [allocateAll]
  | cons base bases ih =>
    rw [allocateAll_cons, ih]
    simp only [allocate, List.mem_cons]
    exact or_left_comm.trans or_assoc.symm

theorem not_mem_taken_of_mem_allocateAll (s : NameSupply) {bases : List String}
    (h : name ∈ (s.allocateAll bases).1) : name ∉ s.taken := by
  induction bases generalizing s with
  | nil => simp [allocateAll] at h
  | cons base bases ih =>
    rw [allocateAll_cons] at h
    rcases List.mem_cons.1 h with rfl | h
    · exact s.free_not_mem_taken base
    · have := ih _ h
      exact fun mem => this (List.mem_cons_of_mem _ mem)

/-- Names that are allocated one after the other are distinct. -/
theorem nodup_allocateAll (s : NameSupply) (bases : List String) :
    (s.allocateAll bases).1.Nodup := by
  induction bases generalizing s with
  | nil => exact List.nodup_nil
  | cons base bases ih =>
    rw [allocateAll_cons]
    refine List.nodup_cons.2 ⟨fun again => ?_, ih _⟩
    have fresh := not_mem_taken_of_mem_allocateAll _ again
    exact fresh (List.mem_cons_self ..)

end NameSupply

end SchemaCompiler
