import SchemaCompiler.Proofs.Definitions.Search

/-!
# The log of a search

A search that notes what it does: a node is entered, an edge from it is followed, or found to lead
back to the path, and the node is left. An edge is noted when the search is back from it, with all
that it led to. Apart from the events nothing is different (`search_log`).

What had been left when a node was entered can be read off the events: `leftBefore`.
-/

namespace SchemaCompiler

namespace Search

variable {n : Nat}

/-! ## Events -/

/-- What happens during a search. -/
inductive Event (n : Nat) where
  | enter (i : Fin n)
  /-- An edge has been followed; or it leads back to the path, and was not. -/
  | follow (i j : Fin n) (onPath : Bool)
  | leave (i : Fin n)
  deriving DecidableEq, Repr

def Event.left? : Event n → Option (Fin n)
  | .leave i => some i
  | _ => none

/-- The nodes that had been left when a node was entered. -/
def leftBefore (events : List (Event n)) (i : Fin n) : List (Fin n) :=
  (events.takeWhile (· != .enter i)).filterMap Event.left?

/-- A search with its events so far. -/
structure Logged (n : Nat) where
  search : Search n := {}
  events : List (Event n) := []
  deriving DecidableEq, Repr

namespace Logged

def note (l : Logged n) (e : Event n) : Logged n := { l with events := l.events ++ [e] }

/-- Note that an edge leads from `i`, the latest node of a path, back to the path. -/
def closeCycle (l : Logged n) (path : List (Fin n)) (i j : Fin n) : Logged n :=
  ⟨{ l.search with cyclic := l.search.cyclic ++ backTo j path }, l.events ++ [.follow i j true]⟩

def leave (l : Logged n) (i : Fin n) : Logged n :=
  ⟨{ l.search with left := l.search.left ++ [i] }, l.events ++ [.leave i]⟩

end Logged

/-! ## Logged searches -/

/-- Follow an edge from `i`, the latest node of a path, visiting a new node by `visit`. -/
def logFollow (visit : Fin n → Logged n → Logged n) (path : List (Fin n)) (i : Fin n)
    (l : Logged n) (j : Fin n) : Logged n :=
  if path.contains j then l.closeCycle path i j
  else if l.search.left.contains j then l.note (.follow i j false)
  else (visit j l).note (.follow i j false)

/-- Visit a node that is not on the path, with all that it leads to. -/
def logVisit (edges : Fin n → List (Fin n)) :
    (fuel : Nat) → (path : List (Fin n)) → Fin n → Logged n → Logged n
  | 0, _, _, l => l
  | fuel + 1, path, i, l =>
    ((edges i).foldl (logFollow (logVisit edges fuel (i :: path)) (i :: path) i)
      (l.note (.enter i))).leave i

/-- Visit a node unless it has been left. -/
def logEnter (edges : Fin n → List (Fin n)) (l : Logged n) (i : Fin n) : Logged n :=
  if l.search.left.contains i then l else logVisit edges n [] i l

/-- The log of a search from every node. -/
def log (edges : Fin n → List (Fin n)) : Logged n := (List.finRange n).foldl (logEnter edges) {}

/-! ## Searches without their events -/

variable {edges : Fin n → List (Fin n)} {fuel : Nat} {path : List (Fin n)} {i j : Fin n}
  {l : Logged n}

theorem search_logFollow {visit : Fin n → Logged n → Logged n}
    (h : ∀ j l, (visit j l).search = Search.visit edges fuel path j l.search) :
    (logFollow visit path i l j).search = follow edges fuel path l.search j := by
  unfold logFollow follow
  by_cases on : path.contains j
  · rw [if_pos on, if_pos on]
    rfl
  · rw [if_neg on, if_neg on]
    by_cases gone : l.search.left.contains j
    · rw [if_pos gone, if_pos gone]
      rfl
    · rw [if_neg gone, if_neg gone]
      exact h j l

theorem search_foldl_logFollow {visit : Fin n → Logged n → Logged n}
    (h : ∀ j l, (visit j l).search = Search.visit edges fuel path j l.search) (js : List (Fin n)) :
    (js.foldl (logFollow visit path i) l).search = js.foldl (follow edges fuel path) l.search := by
  induction js generalizing l with
  | nil => rfl
  | cons j js ih => rw [List.foldl_cons, List.foldl_cons, ih, search_logFollow h]

theorem search_logVisit (edges : Fin n → List (Fin n)) (fuel : Nat) (path : List (Fin n))
    (i : Fin n) (l : Logged n) :
    (logVisit edges fuel path i l).search = visit edges fuel path i l.search := by
  induction fuel generalizing path i l with
  | zero => rfl
  | succ fuel ih =>
    rw [visit_succ, logVisit, Logged.leave]
    simp only
    rw [search_foldl_logFollow (ih (i :: path))]
    rfl

theorem search_logEnter : (logEnter edges l i).search = enter edges l.search i := by
  unfold logEnter enter
  by_cases gone : l.search.left.contains i
  · rw [if_pos gone, if_pos gone]
  · rw [if_neg gone, if_neg gone, search_logVisit]

theorem search_log (edges : Fin n → List (Fin n)) : (log edges).search = run edges := by
  have each : ∀ (is : List (Fin n)) (l : Logged n),
      (is.foldl (logEnter edges) l).search = is.foldl (enter edges) l.search := by
    intro is
    induction is with
    | nil => exact fun l => rfl
    | cons i is ih =>
      intro l
      rw [List.foldl_cons, List.foldl_cons, ih, search_logEnter]
  exact each _ {}

/-! ## What had been left when a node was entered -/

variable {events more : List (Event n)}

theorem leftBefore_subset (events : List (Event n)) (i : Fin n) :
    leftBefore events i ⊆ events.filterMap Event.left? :=
  ((List.takeWhile_sublist _).filterMap _).subset

/-- Later events do not change what had been left when a node was entered. -/
theorem leftBefore_append (h : .enter i ∈ events) :
    leftBefore (events ++ more) i = leftBefore events i := by
  unfold leftBefore
  congr 1
  induction events with
  | nil => simp at h
  | cons e events ih =>
    rw [List.cons_append, List.takeWhile_cons, List.takeWhile_cons]
    by_cases first : e = .enter i
    · simp [first]
    · rw [ih ((List.mem_cons.1 h).resolve_left (Ne.symm first))]

theorem leftBefore_enter (h : .enter i ∉ events) :
    leftBefore (events ++ [.enter i]) i = events.filterMap Event.left? := by
  unfold leftBefore
  congr 1
  rw [List.takeWhile_append_of_pos]
  · simp
  · intro e he
    rw [bne_iff_ne]
    rintro rfl
    exact h he

end Search

end SchemaCompiler
