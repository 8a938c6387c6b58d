import SchemaCompiler.Proofs.Definitions.Log

/-!
# Which nodes a search puts on cycles

A search does not follow edges to nodes that it has left, so it does not see all cycles. Those that
it sees are the cycles of nodes none of which had been left when the node in question was entered:
`mem_cyclic_run_iff`.

One direction is that a cycle is closed along the path, no node of which has been left. For the
other, every edge that is met while a node is visited leads to a node that is left by then, or back
to the path, in which case the node is put on a cycle (`Closed`); so without that, nothing but nodes
that had been left before leads out of the visit.
-/

namespace SchemaCompiler

open Relation

namespace Search

variable {n : Nat} {edges : Fin n → List (Fin n)} {fuel : Nat} {path left : List (Fin n)}
  {i j : Fin n} {s t u : Search n} {l l' : Logged n} {events : List (Event n)}

/-! ## Paths -/

/-- Distinct nodes, the latest first, with an edge to each from the one before it. -/
inductive Path (edges : Fin n → List (Fin n)) : List (Fin n) → Prop where
  | nil : Path edges []
  | cons {path : List (Fin n)} {i : Fin n} (h : Path edges path) (new : i ∉ path)
    (edge : ∀ last ∈ path.head?, i ∈ edges last) : Path edges (i :: path)

theorem Path.trail (h : Path edges path) : Trail (Edge edges) path := by
  induction h with
  | nil => exact .nil
  | cons _ new edge ih => exact ih.cons new edge

/-- The edges to nodes that have not been left. -/
def remaining (edges : Fin n → List (Fin n)) (left : List (Fin n)) (i : Fin n) : List (Fin n) :=
  (edges i).filter fun j => !left.contains j

theorem mem_remaining : j ∈ remaining edges left i ↔ j ∈ edges i ∧ j ∉ left := by
  simp [remaining]

theorem Path.remaining (h : Path edges path) (outside : ∀ i ∈ path, i ∉ left) :
    Path (remaining edges left) path := by
  induction h with
  | nil => exact .nil
  | cons _ new edge ih =>
    obtain ⟨first, rest⟩ := List.forall_mem_cons.1 outside
    exact (ih rest).cons new fun last hl => mem_remaining.2 ⟨edge last hl, first⟩

/-! ## Open cycles -/

/-- A node lies on a cycle of nodes none of which had been left when it was entered. -/
def OnOpenCycle (edges : Fin n → List (Fin n)) (events : List (Event n)) (i : Fin n) : Prop :=
  TransGen (Edge (remaining edges (leftBefore events i))) i i

theorem onOpenCycle_append {more : List (Event n)} (h : .enter i ∈ events) :
    OnOpenCycle edges (events ++ more) i ↔ OnOpenCycle edges events i := by
  unfold OnOpenCycle
  rw [leftBefore_append h]

/-- An edge back to a path closes a cycle of nodes none of which has been left. -/
theorem onOpenCycle_of_mem_backTo (h : Path edges (i :: path))
    (outside : ∀ k ∈ i :: path, k ∉ events.filterMap Event.left?) (hj : j ∈ i :: path)
    (edge : j ∈ edges i) {k : Fin n} (hk : k ∈ backTo j (i :: path)) :
    OnOpenCycle edges events k := by
  have before : ∀ m ∈ i :: path, m ∉ leftBefore events k := fun m hm mem =>
    outside m hm (leftBefore_subset events k mem)
  have edge' : j ∈ remaining edges (leftBefore events k) i :=
    mem_remaining.2 ⟨edge, before j hj⟩
  exact cycle_of_mem_backTo (h.remaining before).trail hj edge' hk

/-! ## What a visit leads to -/

/-- A node has been left, or it is on the path and a cycle back to it has been closed. -/
def Settled (path : List (Fin n)) (t : Search n) (j : Fin n) : Prop :=
  j ∈ t.left ∨ (j ∈ path ∧ backTo j path ⊆ t.cyclic)

theorem Settled.mono (h : Settled path t j) (grows : Grows t u) : Settled path u j := by
  rcases h with gone | ⟨on, cycle⟩
  · exact .inl (grows.mem_left gone)
  · exact .inr ⟨on, List.Subset.trans cycle grows.cyclic⟩

/-- All nodes to which there are edges from what has been left since `s` are settled. -/
def Closed (edges : Fin n → List (Fin n)) (path : List (Fin n)) (s t : Search n) : Prop :=
  ∀ a ∈ t.left, a ∉ s.left → ∀ b ∈ edges a, Settled path t b

namespace Closed

theorem of_left_eq (h : t.left = s.left) : Closed edges path s t := by
  intro a ha hs
  rw [h] at ha
  exact absurd ha hs

theorem trans (h : Closed edges path s t) (h' : Closed edges path t u) (grows : Grows t u) :
    Closed edges path s u := by
  intro a ha hs b hb
  by_cases mem : a ∈ t.left
  · exact (h a mem hs b hb).mono grows
  · exact h' a ha mem b hb

/-- When the latest node of a path is left, its own edges are accounted for, too. -/
theorem leave (h : Closed edges (i :: path) s t) (done : ∀ j ∈ edges i, Settled (i :: path) t j) :
    Closed edges path s { t with left := t.left ++ [i] } := by
  intro a ha hs b hb
  have settled : Settled (i :: path) t b := by
    rcases List.mem_append.1 ha with ha | ha
    · exact h a ha hs b hb
    · obtain rfl := List.mem_singleton.1 ha
      exact done b hb
  rcases settled with gone | ⟨on, cycle⟩
  · exact .inl (List.mem_append_left _ gone)
  · by_cases self : b = i
    · exact .inl (by simp [self])
    · refine .inr ⟨(List.mem_cons.1 on).resolve_left self, fun k hk => cycle ?_⟩
      have unequal : (i != b) = true := bne_iff_ne.2 (Ne.symm self)
      unfold backTo at hk ⊢
      rw [List.takeWhile_cons, if_pos unequal]
      exact List.mem_cons_of_mem _ hk

/-- If no cycle through the latest node of a path has been closed, nothing that its visit leads to
leads back to it, except through what had been left before. -/
theorem not_transGen (h : Closed edges (i :: path) s t)
    (done : ∀ j ∈ edges i, Settled (i :: path) t j) (new : i ∉ t.left) (hi : i ∉ t.cyclic) :
    ¬ TransGen (Edge (remaining edges s.left)) i i := by
  have inside : ∀ b, TransGen (Edge (remaining edges s.left)) i b → b ∈ t.left ∧ b ∉ s.left := by
    intro b hb
    have noCycle : ∀ c, ¬ backTo c (i :: path) ⊆ t.cyclic := fun c cycle =>
      hi (cycle (head_mem_backTo i c path))
    induction hb with
    | single edge =>
      obtain ⟨edge, notLeft⟩ := mem_remaining.1 edge
      exact ⟨(done _ edge).resolve_right fun back => noCycle _ back.2, notLeft⟩
    | tail _ edge ih =>
      obtain ⟨edge, notLeft⟩ := mem_remaining.1 edge
      exact ⟨(h _ ih.1 ih.2 _ edge).resolve_right fun back => noCycle _ back.2, notLeft⟩
  exact fun cycle => new (inside i cycle).1

end Closed

/-! ## Logs while nodes are being visited -/

/-- What holds of a log while the nodes on `path` are being visited. -/
structure Logged.Valid (edges : Fin n → List (Fin n)) (path : List (Fin n)) (l : Logged n) :
    Prop where
  search : Search.Valid edges path l.search
  left : l.events.filterMap Event.left? = l.search.left
  entered : ∀ i, .enter i ∈ l.events ↔ i ∈ path ∨ i ∈ l.search.left
  back : ∀ i j, .follow i j true ∈ l.events → j ∈ l.search.cyclic
  found : ∀ i ∈ l.search.cyclic, .enter i ∈ l.events ∧ OnOpenCycle edges l.events i
  complete : ∀ i ∈ l.search.left, i ∉ l.search.cyclic → ¬ OnOpenCycle edges l.events i

namespace Logged.Valid

theorem nil : Logged.Valid edges [] {} where
  search := ⟨List.nodup_nil, by simp, by simp, by simp⟩
  left := rfl
  entered := by simp
  back := by simp
  found := by simp
  complete := by simp

theorem left_append (h : l.Valid edges path) {e : Event n} (he : e.left? = none) :
    (l.events ++ [e]).filterMap Event.left? = l.search.left := by
  rw [List.filterMap_append, h.left]
  simp [he]

/-- Events that come later change nothing for nodes that are on cycles. -/
theorem found_append (h : l.Valid edges path) (more : List (Event n)) :
    ∀ i ∈ l.search.cyclic,
      .enter i ∈ l.events ++ more ∧ OnOpenCycle edges (l.events ++ more) i := by
  intro i hi
  obtain ⟨entered, cycle⟩ := h.found i hi
  exact ⟨List.mem_append_left _ entered, (onOpenCycle_append entered).2 cycle⟩

theorem complete_append (h : l.Valid edges path) (more : List (Event n)) :
    ∀ i ∈ l.search.left, i ∉ l.search.cyclic → ¬ OnOpenCycle edges (l.events ++ more) i := by
  intro i hi notCyclic
  rw [onOpenCycle_append ((h.entered i).2 (.inr hi))]
  exact h.complete i hi notCyclic

theorem enter (h : l.Valid edges path) (hi : i ∉ l.search.left) :
    (l.note (.enter i)).Valid edges (i :: path) where
  search := { h.search with outside := List.forall_mem_cons.2 ⟨hi, h.search.outside⟩ }
  left := h.left_append rfl
  entered j := by
    have := h.entered j
    simp only [note, List.mem_append, Event.enter.injEq, List.mem_cons, this]
    tauto
  back j k hk := h.back j k (by simpa [note] using hk)
  found := h.found_append _
  complete := h.complete_append _

theorem noteFollow (h : l.Valid edges path) (i j : Fin n) :
    (l.note (.follow i j false)).Valid edges path where
  search := h.search
  left := h.left_append rfl
  entered k := by simpa [note] using h.entered k
  back k m hm := h.back k m (by simpa [note] using hm)
  found := h.found_append _
  complete := h.complete_append _

theorem closeCycle (h : l.Valid edges (i :: path)) (walk : Path edges (i :: path))
    (hj : j ∈ i :: path) (edge : j ∈ edges i) :
    (l.closeCycle (i :: path) i j).Valid edges (i :: path) where
  search := h.search.closeCycle walk.trail hj edge
  left := h.left_append rfl
  entered k := by simpa [Logged.closeCycle] using h.entered k
  back k m hm := by
    rcases List.mem_append.1 hm with hm | hm
    · exact List.mem_append_left _ (h.back k m hm)
    · obtain ⟨rfl, rfl⟩ : k = i ∧ m = j := by simpa using hm
      exact List.mem_append_right _ (List.mem_append_right _ (List.mem_singleton.2 rfl))
  found k hk := by
    rcases List.mem_append.1 hk with hk | hk
    · exact h.found_append _ k hk
    · have on : k ∈ i :: path := mem_of_mem_backTo hj hk
      have entered : .enter k ∈ l.events := (h.entered k).2 (.inl on)
      refine ⟨List.mem_append_left _ entered, (onOpenCycle_append entered).2 ?_⟩
      refine onOpenCycle_of_mem_backTo walk (fun m hm => ?_) hj edge hk
      rw [h.left]
      exact h.search.outside m hm
  complete k hk notCyclic :=
    h.complete_append _ k hk fun cyclic => notCyclic (List.mem_append_left _ cyclic)

/-- A node is left when all of its edges have been followed. -/
theorem leave (h : l.Valid edges (i :: path)) (hi : i ∉ path)
    (before : leftBefore l.events i = s.left) (closed : Closed edges (i :: path) s l.search)
    (done : ∀ j ∈ edges i, Settled (i :: path) l.search j) : (l.leave i).Valid edges path where
  search := by
    refine h.search.leave hi fun j edge => ?_
    rcases done j edge with gone | ⟨_, cycle⟩
    · exact .inr gone
    · exact .inl (cycle (head_mem_backTo i j path))
  left := by
    rw [Logged.leave, List.filterMap_append, h.left]
    simp [Event.left?]
  entered k := by
    have := h.entered k
    simp only [Logged.leave, List.mem_append, reduceCtorEq, this, List.mem_cons]
    tauto
  back k m hm := h.back k m (by simpa [Logged.leave] using hm)
  found := h.found_append _
  complete k hk notCyclic := by
    rcases List.mem_append.1 hk with hk | hk
    · exact h.complete_append _ k hk notCyclic
    · obtain rfl := List.mem_singleton.1 hk
      have entered : .enter k ∈ l.events := (h.entered k).2 (.inl (List.mem_cons_self ..))
      intro cycle
      unfold OnOpenCycle Logged.leave at cycle
      rw [leftBefore_append entered, before] at cycle
      exact closed.not_transGen done (h.search.outside k (List.mem_cons_self ..)) notCyclic cycle

end Logged.Valid

/-! ## Logged searches -/

/-- What a step of a logged search has to achieve. -/
structure Logged.Step (edges : Fin n → List (Fin n)) (path : List (Fin n)) (l l' : Logged n) :
    Prop where
  valid : l'.Valid edges path
  grows : Grows l.search l'.search
  closed : Closed edges path l.search l'.search
  events : l.events <+: l'.events

namespace Logged.Step

theorem refl (h : l.Valid edges path) : Logged.Step edges path l l :=
  ⟨h, .refl _, .of_left_eq rfl, List.prefix_rfl⟩

theorem trans {l'' : Logged n} (h : Logged.Step edges path l l')
    (h' : Logged.Step edges path l' l'') : Logged.Step edges path l l'' :=
  ⟨h'.valid, h.grows.trans h'.grows, h.closed.trans h'.closed h'.grows, h.events.trans h'.events⟩

theorem noteFollow (h : Logged.Step edges path l l') (i j : Fin n) :
    Logged.Step edges path l (l'.note (.follow i j false)) :=
  ⟨h.valid.noteFollow i j, h.grows, h.closed, h.events.trans (List.prefix_append _ _)⟩

end Logged.Step

/-- What a visit has to achieve: its node is left. -/
def Visits (edges : Fin n → List (Fin n)) (path : List (Fin n))
    (visit : Fin n → Logged n → Logged n) : Prop :=
  ∀ j l, Path edges (j :: path) → l.Valid edges path → j ∉ l.search.left →
    Logged.Step edges path l (visit j l) ∧ j ∈ (visit j l).search.left

variable {visit : Fin n → Logged n → Logged n}

theorem step_logFollow (visits : Visits edges (i :: path) visit) (walk : Path edges (i :: path))
    (h : l.Valid edges (i :: path)) (edge : j ∈ edges i) :
    Logged.Step edges (i :: path) l (logFollow visit (i :: path) i l j) ∧
      Settled (i :: path) (logFollow visit (i :: path) i l j).search j := by
  unfold logFollow
  by_cases on : j ∈ i :: path
  · rw [if_pos (by simpa using on)]
    have grows : Grows l.search (l.closeCycle (i :: path) i j).search :=
      ⟨List.prefix_rfl, List.subset_append_left _ _⟩
    exact ⟨⟨h.closeCycle walk on edge, grows, .of_left_eq rfl, List.prefix_append _ _⟩,
      .inr ⟨on, List.subset_append_right _ _⟩⟩
  · rw [if_neg (by simpa using on)]
    by_cases gone : j ∈ l.search.left
    · rw [if_pos (by simpa using gone)]
      exact ⟨(Logged.Step.refl h).noteFollow i j, .inl gone⟩
    · rw [if_neg (by simpa using gone)]
      have walk' : Path edges (j :: i :: path) := walk.cons on fun last hl => by
        obtain rfl : i = last := by simpa using hl
        exact edge
      obtain ⟨step, left⟩ := visits j l walk' h gone
      exact ⟨step.noteFollow i j, .inl left⟩

theorem step_foldl_logFollow (visits : Visits edges (i :: path) visit)
    (walk : Path edges (i :: path)) (js : List (Fin n)) (hjs : js ⊆ edges i)
    (h : l.Valid edges (i :: path)) :
    Logged.Step edges (i :: path) l (js.foldl (logFollow visit (i :: path) i) l) ∧
      ∀ j ∈ js, Settled (i :: path) (js.foldl (logFollow visit (i :: path) i) l).search j := by
  induction js generalizing l with
  | nil => exact ⟨.refl h, by simp⟩
  | cons j js ih =>
    obtain ⟨edge, hjs⟩ := List.cons_subset.1 hjs
    obtain ⟨step, settled⟩ := step_logFollow visits walk h edge
    obtain ⟨steps, done⟩ := ih hjs step.valid
    exact ⟨step.trans steps, List.forall_mem_cons.2 ⟨settled.mono steps.grows, done⟩⟩

/-- A visit leaves its node. There is fuel for all nodes that are not on the path. -/
theorem visits_logVisit (fuel : Nat) (enough : n ≤ path.length + fuel) :
    Visits edges path (logVisit edges fuel path) := by
  induction fuel generalizing path with
  | zero =>
    intro j l walk
    have := walk.trail.length_le
    simp only [List.length_cons] at this
    omega
  | succ fuel ih =>
    intro i l walk h hi
    have enough' : n ≤ (i :: path).length + fuel := by
      simp only [List.length_cons]
      omega
    have new : i ∉ path := walk.trail.not_mem_tail
    have entered := h.enter hi
    obtain ⟨step, done⟩ :=
      step_foldl_logFollow (ih enough') walk (edges i) (List.Subset.refl _) entered
    rw [logVisit]
    generalize (edges i).foldl (logFollow (logVisit edges fuel (i :: path)) (i :: path) i)
      (l.note (.enter i)) = l' at step done
    have before : leftBefore l'.events i = l.search.left := by
      obtain ⟨more, events⟩ := step.events
      rw [← events, leftBefore_append (by simp [Logged.note])]
      have first : .enter i ∉ l.events := by
        intro again
        exact ((h.entered i).1 again).elim new hi
      rw [← h.left]
      exact leftBefore_enter first
    refine ⟨⟨step.valid.leave new before step.closed done, ?_, step.closed.leave done, ?_⟩, ?_⟩
    · exact ⟨step.grows.left.trans (List.prefix_append _ _), step.grows.cyclic⟩
    · have prior : l.events <+: (l.note (.enter i)).events := List.prefix_append _ _
      exact (prior.trans step.events).trans (List.prefix_append _ _)
    · exact List.mem_append_right _ (List.mem_singleton.2 rfl)

theorem valid_foldl_logEnter (is : List (Fin n)) (h : l.Valid edges []) :
    (is.foldl (logEnter edges) l).Valid edges [] := by
  induction is generalizing l with
  | nil => exact h
  | cons i is ih =>
    refine ih ?_
    unfold logEnter
    by_cases gone : i ∈ l.search.left
    · rw [if_pos (by simpa using gone)]
      exact h
    · rw [if_neg (by simpa using gone)]
      have walk : Path edges [i] := .cons .nil (by simp) (by simp)
      exact (visits_logVisit n (by simp) i l walk h gone).1.valid

theorem valid_log (edges : Fin n → List (Fin n)) : (log edges).Valid edges [] :=
  valid_foldl_logEnter _ .nil

/-- A node to which an edge leads back is put on a cycle. -/
theorem mem_cyclic_of_follow (h : .follow i j true ∈ (log edges).events) :
    j ∈ (run edges).cyclic := by
  rw [← search_log]
  exact (valid_log edges).back i j h

/-- A search puts a node on a cycle if it lies on one of nodes none of which had been left when it
was entered, and only then. -/
theorem mem_cyclic_run_iff :
    i ∈ (run edges).cyclic ↔ OnOpenCycle edges (log edges).events i := by
  have valid := valid_log edges
  rw [← search_log]
  constructor
  · exact fun hi => (valid.found i hi).2
  · intro cycle
    by_contra hi
    refine valid.complete i ?_ hi cycle
    rw [search_log]
    exact mem_left_run edges i

end Search

end SchemaCompiler
