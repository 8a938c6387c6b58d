import SchemaCompiler.Proofs.Definitions.Supply

/-!
# How a name is allocated

A supply looks at the name that is asked for and, as long as what it looks at is taken, at the same
name with the next number, from 2 on. `Attempt.Ends` is this search as it is, without any bound. It
ends for every list of taken names, after no more turns than there are of them
(`ends_first_free`), and with the first free candidate (`Attempt.Ends.candidate`).

So each of several names that are allocated one after the other is fresh, made with the least number
that will do, and all that becomes taken by its allocation: `names_allocated`.
-/

namespace SchemaCompiler

namespace NameSupply

variable {taken : List String} {base name other : String} {n tries turns turns' : Nat}

/-! ## The search for a free name -/

/-- Where a search is: the name that it looks at, and the number with which it goes on if that name
is taken. -/
structure Attempt where
  name : String
  next : Nat

namespace Attempt

/-- A search begins with the name that is asked for. -/
def first (base : String) : Attempt := ⟨base, 2⟩

/-- The next number is tried. -/
def retry (base : String) (a : Attempt) : Attempt :=
  ⟨base ++ "_" ++ toString a.next, a.next + 1⟩

/-- From some attempt on, a search takes some turns and ends with a name. -/
inductive Ends (taken : List String) (base : String) : Attempt → (turns : Nat) → String → Prop
  | free {a : Attempt} (isFree : a.name ∉ taken) : Ends taken base a 0 a.name
  | retry {a : Attempt} {turns : Nat} {name : String} (isTaken : a.name ∈ taken)
      (later : Ends taken base (a.retry base) turns name) : Ends taken base a (turns + 1) name

/-- The attempt that looks at the `n`th candidate. -/
def ofNumber (base : String) (n : Nat) : Attempt := ⟨candidate base n, n + 1⟩

theorem retry_ofNumber (hn : 1 ≤ n) : (ofNumber base n).retry base = ofNumber base (n + 1) := by
  have numbered : candidate base (n + 1) = base ++ "_" ++ toString (n + 1) := by
    apply if_neg
    omega
  unfold ofNumber retry
  rw [numbered]

variable {a : Attempt}

theorem Ends.not_mem (h : Ends taken base a turns name) : name ∉ taken := by
  induction h with
  | free isFree => exact isFree
  | retry _ _ ih => exact ih

/-- A search ends in one way only. -/
theorem Ends.unique (h : Ends taken base a turns name) (h' : Ends taken base a turns' other) :
    turns = turns' ∧ name = other := by
  induction h generalizing turns' with
  | free isFree =>
    cases h' with
    | free => exact ⟨rfl, rfl⟩
    | retry isTaken => exact absurd isTaken isFree
  | retry isTaken _ ih =>
    cases h' with
    | free isFree => exact absurd isTaken isFree
    | retry _ later =>
      obtain ⟨turns, name⟩ := ih later
      exact ⟨congrArg (· + 1) turns, name⟩

/-- The name at which a search ends is the first candidate that is free. -/
theorem Ends.candidate (hn : 1 ≤ n) (h : Ends taken base (ofNumber base n) turns name) :
    name = candidate base (n + turns) ∧
      ∀ m, n ≤ m → m < n + turns → NameSupply.candidate base m ∈ taken := by
  induction turns generalizing n with
  | zero =>
    cases h with
    | free => exact ⟨rfl, fun m le lt => by omega⟩
  | succ turns ih =>
    cases h with
    | retry isTaken later =>
      rw [retry_ofNumber hn] at later
      obtain ⟨found, below⟩ := ih (by omega) later
      refine ⟨?_, fun m le lt => ?_⟩
      · rw [found]
        congr 1
        omega
      · by_cases here : m = n
        · rw [here]
          exact isTaken
        · exact below m (by omega) (by omega)

end Attempt

open Attempt

/-- As long as there are tries, these are the turns of the search. -/
theorem ends_firstFree (hn : 1 ≤ n) (isFree : firstFree taken base n tries ∉ taken) :
    ∃ turns ≤ tries, Ends taken base (ofNumber base n) turns (firstFree taken base n tries) := by
  induction tries generalizing n with
  | zero => exact ⟨0, Nat.le_refl 0, .free isFree⟩
  | succ tries ih =>
    unfold firstFree at isFree ⊢
    by_cases isTaken : taken.contains (candidate base n)
    · rw [if_pos isTaken] at isFree ⊢
      obtain ⟨turns, le, ends⟩ := ih (by omega) isFree
      rw [← retry_ofNumber hn] at ends
      refine ⟨turns + 1, by omega, .retry ?_ ends⟩
      show candidate base n ∈ taken
      simpa using isTaken
    · rw [if_neg isTaken] at isFree ⊢
      exact ⟨0, by omega, .free isFree⟩

/-- The search ends with the free name of the supply, after at most one turn for each name that is
taken. -/
theorem ends_first_free (s : NameSupply) (base : String) :
    ∃ turns ≤ s.taken.length, Ends s.taken base (first base) turns (s.free base) :=
  ends_firstFree (Nat.le_refl 1) (s.free_not_mem_taken base)

theorem free_eq_candidate (s : NameSupply) (base : String) :
    ∃ n, s.free base = candidate base n := by
  obtain ⟨turns, -, ends⟩ := s.ends_first_free base
  exact ⟨1 + turns, (Ends.candidate (Nat.le_refl 1) ends).1⟩

/-! ## One allocation -/

/-- A supply that is asked for a name gives one and leaves another supply: the search ends, with
this name and no other; it is the name asked for or, if that is taken, the one with the least
number that is free; and it is all that becomes taken. -/
structure Allocates (s : NameSupply) (base name : String) (later : NameSupply) : Prop where
  ends : ∃ turns ≤ s.taken.length, Ends s.taken base (first base) turns name
  unique : ∀ turns other, Ends s.taken base (first base) turns other → other = name
  isFree : name ∉ s.taken
  same : base ∉ s.taken → name = base
  numbered : base ∈ s.taken → ∃ n ≥ 2, name = base ++ "_" ++ toString n ∧
    ∀ m, 2 ≤ m → m < n → base ++ "_" ++ toString m ∈ s.taken
  taken : ∀ other, other ∈ later.taken ↔ other = name ∨ other ∈ s.taken

theorem candidate_of_two_le (hn : 2 ≤ n) : candidate base n = base ++ "_" ++ toString n := by
  apply if_neg
  omega

theorem allocates_allocate (s : NameSupply) (base : String) :
    s.Allocates base (s.allocate base).1 (s.allocate base).2 := by
  obtain ⟨turns, le, ends⟩ := s.ends_first_free base
  obtain ⟨found, below⟩ := Ends.candidate (Nat.le_refl 1) ends
  refine ⟨⟨turns, le, ends⟩, fun _ _ other => (other.unique ends).2, ends.not_mem,
    fun isFree => ?_, fun isTaken => ?_, fun other => List.mem_cons⟩
  · have none : turns = 0 := (ends.unique (.free isFree)).1
    show s.free base = base
    rw [found, none]
    rfl
  · -- The base is the first candidate, so the search has gone on at least once.
    have some : turns ≠ 0 := by
      rintro rfl
      exact ends.not_mem (found ▸ isTaken)
    refine ⟨1 + turns, by omega, ?_, fun m le lt => ?_⟩
    · show s.free base = _
      rw [found]
      apply candidate_of_two_le
      omega
    · rw [← candidate_of_two_le le]
      exact below m (by omega) lt

/-! ## Several allocations -/

theorem allocateAll_append (s : NameSupply) (before after : List String) :
    s.allocateAll (before ++ after) =
      ((s.allocateAll before).1 ++ ((s.allocateAll before).2.allocateAll after).1,
        ((s.allocateAll before).2.allocateAll after).2) := by
  induction before generalizing s with
  | nil => rfl
  | cons base before ih =>
    rw [List.cons_append, allocateAll_cons, allocateAll_cons, ih]
    rfl

/-- Of the names that a supply allocates one after the other, each is found by a search that ends,
is neither reserved nor allocated before, and is made with the least number that will do, where the
taken names are the reserved ones and those allocated before; after it, this name is taken, too. -/
theorem names_allocated (reserved before : List String) (base : String) (after : List String) :
    let earlier := allocateAll ⟨reserved⟩ before
    let call := earlier.2.allocate base
    let later := call.2.allocateAll after
    allocateAll ⟨reserved⟩ (before ++ base :: after) = (earlier.1 ++ call.1 :: later.1, later.2) ∧
    (∀ name, name ∈ earlier.2.taken ↔ name ∈ earlier.1 ∨ name ∈ reserved) ∧
    (call.1 ∉ reserved ∧ call.1 ∉ earlier.1) ∧
    earlier.2.Allocates base call.1 call.2 := by
  intro earlier call later
  have taken : ∀ name, name ∈ earlier.2.taken ↔ name ∈ earlier.1 ∨ name ∈ reserved :=
    fun name => mem_taken_allocateAll _ _
  have allocates : earlier.2.Allocates base call.1 call.2 := earlier.2.allocates_allocate base
  refine ⟨?_, taken, ⟨fun old => ?_, fun old => ?_⟩, allocates⟩
  · rw [allocateAll_append, allocateAll_cons]
    rfl
  · exact allocates.isFree ((taken _).2 (.inr old))
  · exact allocates.isFree ((taken _).2 (.inl old))

/-- A base that looks like a numbered name takes the number from another one. -/
example : (allocateAll ⟨["v", "User_2"]⟩ ["User", "User", "User_2", "User_2", "v"]).1 =
    ["User", "User_3", "User_2_2", "User_2_3", "v_2"] := by decide +kernel

end NameSupply

end SchemaCompiler
