import Mathlib.Order.Basic

/-!
# Trees of calls

A call that makes finitely many calls in turn, each of which does, too, leads to finitely many calls
in all if no chain of calls goes on for ever: the tree of them has a level on which there are none.
-/

namespace SchemaCompiler

section

variable {α : Type} {calls : α → List α} {a : α} {m n : Nat}

/-- The calls on one level of the tree of all calls that a call leads to. -/
def callsOnLevel (calls : α → List α) : (level : Nat) → α → List α
  | 0, a => [a]
  | level + 1, a => (calls a).flatMap (callsOnLevel calls level)

theorem callsOnLevel_eq_nil_of_le (h : m ≤ n) (none : callsOnLevel calls m a = []) :
    callsOnLevel calls n a = [] := by
  induction m generalizing n a with
  | zero => simp [callsOnLevel] at none
  | succ m ih =>
    cases n with
    | zero => omega
    | succ n =>
      simp only [callsOnLevel, List.flatMap_eq_nil_iff] at none ⊢
      exact fun next mem => ih (by omega) (none next mem)

/-- Finitely many calls end after finitely many levels. -/
theorem exists_callsOnLevel_eq_nil (acc : Acc (fun next a => next ∈ calls a) a) :
    ∃ level, callsOnLevel calls level a = [] := by
  induction acc with
  | intro a _ ih =>
    have all : ∀ some ⊆ calls a, ∃ level, ∀ next ∈ some, callsOnLevel calls level next = [] := by
      intro some
      induction some with
      | nil => exact fun _ => ⟨0, by simp⟩
      | cons next some ihSome =>
        intro sub
        obtain ⟨mem, sub⟩ := List.cons_subset.1 sub
        obtain ⟨m, hm⟩ := ih next mem
        obtain ⟨n, hn⟩ := ihSome sub
        -- The deepest of finitely many calls decides.
        refine ⟨max m n, List.forall_mem_cons.2 ⟨?_, fun c hc => ?_⟩⟩
        · exact callsOnLevel_eq_nil_of_le (Nat.le_max_left m n) hm
        · exact callsOnLevel_eq_nil_of_le (Nat.le_max_right m n) (hn c hc)
    obtain ⟨level, h⟩ := all _ (List.Subset.refl _)
    exact ⟨level + 1, by simpa [callsOnLevel, List.flatMap_eq_nil_iff] using h⟩

end

end SchemaCompiler
