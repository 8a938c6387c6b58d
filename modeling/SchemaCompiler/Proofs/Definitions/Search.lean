import Mathlib.Data.Fintype.Card
import Mathlib.Data.List.Basic
import Mathlib.Logic.Relation
import SchemaCompiler.Definitions.Cycles

/-!
# What the search for cycles finds

A `Trail` is what a depth-first walk has before it: the nodes that have been entered and not left,
the latest first, each of which is reached from those under it.

While a search walks along a trail, every node that it has left either was put on a cycle or leads
only to nodes that had been left before it (`Search.Valid`). So nodes that are never put on a cycle
lead to each other in one direction only (`Search.rank_lt_rank`), although edges to nodes that have
been left are not followed; and every node that is put on a cycle lies on one.
-/

namespace SchemaCompiler

open Relation

/-! ## Trails -/

section Trail

variable {α : Type} {r : α → α → Prop} {i j : α} {trail : List α}

/-- Distinct nodes, the latest first, each of which is reached from those after it. -/
structure Trail (r : α → α → Prop) (trail : List α) : Prop where
  nodup : trail.Nodup
  leads : trail.Pairwise fun later earlier => TransGen r earlier later

namespace Trail

theorem nil : Trail r [] := ⟨List.nodup_nil, List.Pairwise.nil⟩

theorem tail (h : Trail r (i :: trail)) : Trail r trail :=
  ⟨(List.nodup_cons.1 h.nodup).2, (List.pairwise_cons.1 h.leads).2⟩

theorem not_mem_tail (h : Trail r (i :: trail)) : i ∉ trail := (List.nodup_cons.1 h.nodup).1

theorem reaches_head (h : Trail r (i :: trail)) (hj : j ∈ i :: trail) : ReflTransGen r j i := by
  rcases List.mem_cons.1 hj with rfl | hj
  · exact .refl
  · exact ((List.pairwise_cons.1 h.leads).1 j hj).to_reflTransGen

/-- A trail goes on to a new node to which its latest one leads. -/
theorem cons (h : Trail r trail) (hi : i ∉ trail) (hr : ∀ last ∈ trail.head?, r last i) :
    Trail r (i :: trail) := by
  refine ⟨List.nodup_cons.2 ⟨hi, h.nodup⟩, List.pairwise_cons.2 ⟨fun j hj => ?_, h.leads⟩⟩
  cases trail with
  | nil => simp at hj
  | cons last trail => exact .tail' (h.reaches_head hj) (hr last (by simp))

/-- A node of a trail to which the latest one leads lies on a cycle. -/
theorem cycle (h : Trail r (i :: trail)) (hj : j ∈ i :: trail) (hr : r i j) : TransGen r j j :=
  .tail' (h.reaches_head hj) hr

theorem length_le {n : Nat} {r : Fin n → Fin n → Prop} {trail : List (Fin n)}
    (h : Trail r trail) : trail.length ≤ n := by
  simpa using h.nodup.length_le_card

end Trail

end Trail

/-! ## Searches -/

namespace Search

variable {n : Nat} {edges : Fin n → List (Fin n)} {path : List (Fin n)} {i j : Fin n}
  {s t u : Search n}

/-- There is an edge from one node to another. -/
def Edge (edges : Fin n → List (Fin n)) (a b : Fin n) : Prop := b ∈ edges a

/-- What holds of a search while the nodes on `path` are being visited. -/
structure Valid (edges : Fin n → List (Fin n)) (path : List (Fin n)) (s : Search n) : Prop where
  nodup : s.left.Nodup
  outside : ∀ i ∈ path, i ∉ s.left
  ordered : ∀ a ∈ s.left, ∀ b ∈ edges a, a ∈ s.cyclic ∨ s.left.idxOf b < s.left.idxOf a
  cyclic : ∀ a ∈ s.cyclic, TransGen (Edge edges) a a

/-- What a search has found is not lost. -/
structure Grows (s t : Search n) : Prop where
  left : s.left <+: t.left
  cyclic : s.cyclic ⊆ t.cyclic

theorem Grows.refl (s : Search n) : Grows s s := ⟨List.prefix_rfl, List.Subset.refl _⟩

theorem Grows.trans (h : Grows s t) (h' : Grows t u) : Grows s u :=
  ⟨h.left.trans h'.left, fun _ ha => h'.cyclic (h.cyclic ha)⟩

theorem Grows.mem_left (h : Grows s t) (hi : i ∈ s.left) : i ∈ t.left := h.left.subset hi

/-- A cycle is closed by an edge back to a node on the path. -/
theorem mem_of_mem_backTo (hj : j ∈ path) (h : i ∈ backTo j path) :
    i ∈ path := by
  rcases List.mem_append.1 h with h | h
  · exact (List.takeWhile_prefix _).subset h
  · rwa [List.mem_singleton.1 h]

theorem head_mem_backTo (i j : Fin n) (path : List (Fin n)) : i ∈ backTo j (i :: path) := by
  by_cases h : i = j
  · simp [backTo, h]
  · simp [backTo, h]

theorem reaches_of_mem_backTo (trail : Trail (Edge edges) path) (hj : j ∈ path)
    (h : i ∈ backTo j path) : ReflTransGen (Edge edges) j i := by
  induction path with
  | nil => simp at hj
  | cons k path ih =>
    by_cases hk : k = j
    · obtain rfl : i = j := by simpa [backTo, hk] using h
      exact .refl
    · have mem : j ∈ path := (List.mem_cons.1 hj).resolve_left (Ne.symm hk)
      have : i = k ∨ i ∈ backTo j path := by
        simpa [backTo, List.takeWhile_cons, hk, or_assoc] using h
      rcases this with rfl | h
      · exact trail.reaches_head hj
      · exact ih trail.tail mem h

theorem cycle_of_mem_backTo (trail : Trail (Edge edges) (i :: path)) (hj : j ∈ i :: path)
    (edge : j ∈ edges i) {k : Fin n} (h : k ∈ backTo j (i :: path)) :
    TransGen (Edge edges) k k :=
  .trans_left (.tail' (trail.reaches_head (mem_of_mem_backTo hj h)) edge)
    (reaches_of_mem_backTo trail hj h)

theorem Valid.closeCycle (h : Valid edges (i :: path) s) (trail : Trail (Edge edges) (i :: path))
    (hj : j ∈ i :: path) (edge : j ∈ edges i) :
    Valid edges (i :: path) { s with cyclic := s.cyclic ++ backTo j (i :: path) } where
  nodup := h.nodup
  outside := h.outside
  ordered a ha b hb := (h.ordered a ha b hb).imp_left (List.mem_append_left _)
  cyclic a ha := (List.mem_append.1 ha).elim (h.cyclic a)
    (cycle_of_mem_backTo trail hj edge)

/-- A node can be left when each of its edges led to a cycle or to a node that had been left. -/
theorem Valid.leave (h : Valid edges (i :: path) s) (hi : i ∉ path)
    (done : ∀ j ∈ edges i, i ∈ s.cyclic ∨ j ∈ s.left) :
    Valid edges path { s with left := s.left ++ [i] } where
  nodup := by
    have := h.outside i (by simp)
    exact List.nodup_append.2 ⟨h.nodup, List.nodup_singleton i, fun a ha b hb e =>
      this (List.mem_singleton.1 hb ▸ e ▸ ha)⟩
  outside j hj := by
    have := h.outside j (List.mem_cons_of_mem _ hj)
    simp only [List.mem_append, List.mem_singleton, not_or]
    exact ⟨this, fun e => hi (e ▸ hj)⟩
  ordered a ha b hb := by
    rcases List.mem_append.1 ha with ha | ha
    · refine (h.ordered a ha b hb).imp_right fun lt => ?_
      have hb : b ∈ s.left :=
        List.idxOf_lt_length_iff.1 (lt.trans (List.idxOf_lt_length_iff.2 ha))
      rwa [List.idxOf_append_of_mem ha, List.idxOf_append_of_mem hb]
    · -- The node itself is left after all nodes that its edges lead to.
      obtain rfl := List.mem_singleton.1 ha
      refine (done b hb).imp_right fun hb => ?_
      rw [List.idxOf_append_of_mem hb, List.idxOf_append_of_notMem (h.outside a (by simp))]
      exact Nat.lt_add_right _ (List.idxOf_lt_length_iff.2 hb)
  cyclic := h.cyclic

/-- What a visit to the latest node of `path` does at an edge to `j`. -/
def follow (edges : Fin n → List (Fin n)) (fuel : Nat) (path : List (Fin n)) (s : Search n)
    (j : Fin n) : Search n :=
  if path.contains j then { s with cyclic := s.cyclic ++ backTo j path }
  else if s.left.contains j then s
  else visit edges fuel path j s

theorem visit_succ (fuel : Nat) (path : List (Fin n)) (i : Fin n) (s : Search n) :
    visit edges (fuel + 1) path i s =
      { (edges i).foldl (follow edges fuel (i :: path)) s with
        left := ((edges i).foldl (follow edges fuel (i :: path)) s).left ++ [i] } := rfl

/-- What a visit to `i` from `path` has to achieve. -/
structure Visited (edges : Fin n → List (Fin n)) (path : List (Fin n)) (i : Fin n)
    (s t : Search n) : Prop where
  valid : Valid edges path t
  grows : Grows s t
  mem_left : i ∈ t.left

theorem valid_follow {fuel : Nat} (trail : Trail (Edge edges) (i :: path))
    (visit_valid : ∀ {j s}, Trail (Edge edges) (j :: i :: path) → Valid edges (i :: path) s →
      j ∉ s.left → Visited edges (i :: path) j s (visit edges fuel (i :: path) j s))
    (h : Valid edges (i :: path) s) (edge : j ∈ edges i) :
    Valid edges (i :: path) (follow edges fuel (i :: path) s j) ∧
      Grows s (follow edges fuel (i :: path) s j) ∧
      (i ∈ (follow edges fuel (i :: path) s j).cyclic ∨
        j ∈ (follow edges fuel (i :: path) s j).left) := by
  unfold follow
  split
  next on =>
    have on : j ∈ i :: path := by simpa using on
    refine ⟨h.closeCycle trail on edge, ⟨List.prefix_rfl, List.subset_append_left _ _⟩, .inl ?_⟩
    exact List.mem_append_right _ (head_mem_backTo i j path)
  next off =>
    have off : j ∉ i :: path := by simpa using off
    split
    next gone => exact ⟨h, .refl s, .inr (by simpa using gone)⟩
    next new =>
      have trail' := trail.cons off fun last hl => by
        obtain rfl : i = last := by simpa using hl
        exact edge
      have := visit_valid trail' h (by simpa using new)
      exact ⟨this.valid, this.grows, .inr this.mem_left⟩

theorem valid_foldl_follow {fuel : Nat} (trail : Trail (Edge edges) (i :: path))
    (visit_valid : ∀ {j s}, Trail (Edge edges) (j :: i :: path) → Valid edges (i :: path) s →
      j ∉ s.left → Visited edges (i :: path) j s (visit edges fuel (i :: path) j s))
    (js : List (Fin n)) (hjs : js ⊆ edges i) (h : Valid edges (i :: path) s) :
    Valid edges (i :: path) (js.foldl (follow edges fuel (i :: path)) s) ∧
      Grows s (js.foldl (follow edges fuel (i :: path)) s) ∧
      ∀ j ∈ js, i ∈ (js.foldl (follow edges fuel (i :: path)) s).cyclic ∨
        j ∈ (js.foldl (follow edges fuel (i :: path)) s).left := by
  induction js generalizing s with
  | nil => exact ⟨h, .refl s, by simp⟩
  | cons j js ih =>
    obtain ⟨edge, hjs⟩ := List.cons_subset.1 hjs
    obtain ⟨valid, grows, done⟩ := valid_follow trail visit_valid h edge
    obtain ⟨valid', grows', done'⟩ := ih hjs valid
    refine ⟨valid', grows.trans grows', fun k hk => ?_⟩
    rcases List.mem_cons.1 hk with rfl | hk
    · exact done.imp (fun hi => grows'.cyclic hi) grows'.mem_left
    · exact done' k hk

/-- A visit leaves its node. There is fuel for all nodes that are not on the path. -/
theorem valid_visit (fuel : Nat) (enough : n ≤ path.length + fuel)
    (trail : Trail (Edge edges) (i :: path)) (h : Valid edges path s) (hi : i ∉ s.left) :
    Visited edges path i s (visit edges fuel path i s) := by
  induction fuel generalizing path i s with
  | zero =>
    -- A trail is not longer than there are nodes, so the fuel does not run out.
    have := trail.length_le
    simp only [List.length_cons] at this
    omega
  | succ fuel ih =>
    have h' : Valid edges (i :: path) s :=
      { h with outside := List.forall_mem_cons.2 ⟨hi, h.outside⟩ }
    obtain ⟨valid, grows, done⟩ := valid_foldl_follow trail
      (fun trail h hj => ih (by simp only [List.length_cons]; omega) trail h hj) (edges i)
      (List.Subset.refl _) h'
    rw [visit_succ]
    exact ⟨valid.leave trail.not_mem_tail done,
      ⟨grows.left.trans (List.prefix_append _ _), grows.cyclic⟩, by simp⟩

/-- Visit a node unless it has been left. -/
def enter (edges : Fin n → List (Fin n)) (s : Search n) (i : Fin n) : Search n :=
  if s.left.contains i then s else visit edges n [] i s

/-- What holds after a search from some nodes. -/
theorem valid_foldl_enter (is : List (Fin n)) (h : Valid edges [] s) :
    Valid edges [] (is.foldl (enter edges) s) ∧ Grows s (is.foldl (enter edges) s) ∧
      ∀ i ∈ is, i ∈ (is.foldl (enter edges) s).left := by
  induction is generalizing s with
  | nil => exact ⟨h, .refl s, by simp⟩
  | cons i is ih =>
    have first : Visited edges [] i s (enter edges s i) := by
      unfold enter
      split
      next gone => exact ⟨h, .refl s, by simpa using gone⟩
      next new =>
        exact valid_visit n (by simp) (Trail.nil.cons (by simp) (by simp)) h (by simpa using new)
    obtain ⟨valid, grows, done⟩ := ih first.valid
    refine ⟨valid, first.grows.trans grows, fun k hk => ?_⟩
    rcases List.mem_cons.1 hk with rfl | hk
    · exact grows.mem_left first.mem_left
    · exact done k hk

theorem valid_run (edges : Fin n → List (Fin n)) : Valid edges [] (run edges) :=
  (valid_foldl_enter _ ⟨List.nodup_nil, by simp, by simp, by simp⟩).1

theorem mem_left_run (edges : Fin n → List (Fin n)) (i : Fin n) : i ∈ (run edges).left :=
  (valid_foldl_enter _ ⟨List.nodup_nil, by simp, by simp, by simp⟩).2.2 i (List.mem_finRange i)

/-- A bound on how many edges can be followed from a node to nodes that are not put on a cycle. -/
def rank (edges : Fin n → List (Fin n)) (i : Fin n) : Nat :=
  if i ∈ (run edges).cyclic then n else (run edges).left.idxOf i

theorem rank_lt_of_not_mem_cyclic (hi : i ∉ (run edges).cyclic) : rank edges i < n := by
  rw [rank, if_neg hi]
  exact (List.idxOf_lt_length_iff.2 (mem_left_run edges i)).trans_le
    (by simpa using (valid_run edges).nodup.length_le_card)

/-- Edges to nodes that are not put on a cycle lead down. -/
theorem rank_lt_rank (edge : j ∈ edges i) (hj : j ∉ (run edges).cyclic) :
    rank edges j < rank edges i := by
  by_cases hi : i ∈ (run edges).cyclic
  · rw [rank, rank, if_pos hi, ← rank]
    exact rank_lt_of_not_mem_cyclic hj
  · rw [rank, rank, if_neg hi, if_neg hj]
    exact ((valid_run edges).ordered i (mem_left_run edges i) j edge).resolve_left hi

end Search

end SchemaCompiler
