/-!
# Sets of symbols

The library symbols that a piece of code uses, kept in ascending order without repeats, so that two
sets with the same symbols are equal.
-/

namespace SchemaCompiler

/-- Put `s` in its place among ascending symbols. -/
def insertAscending (s : String) : List String → List String
  | [] => [s]
  | t :: ts =>
    if s < t then s :: t :: ts else if s = t then t :: ts else t :: insertAscending s ts

theorem mem_insertAscending {s u : String} {ts : List String} :
    u ∈ insertAscending s ts ↔ u = s ∨ u ∈ ts := by
  induction ts with
  | nil => simp [insertAscending]
  | cons t ts ih =>
    simp only [insertAscending]
    split
    · simp
    · split
      · rename_i h
        subst h
        simp
      · simp only [List.mem_cons, ih]
        constructor
        · rintro (h | h | h) <;> simp [h]
        · rintro (h | h | h) <;> simp [h]

theorem pairwise_insertAscending {s : String} {ts : List String} (h : ts.Pairwise (· < ·)) :
    (insertAscending s ts).Pairwise (· < ·) := by
  induction ts with
  | nil => simp [insertAscending]
  | cons t ts ih =>
    rw [List.pairwise_cons] at h
    simp only [insertAscending]
    split
    · rename_i st
      refine List.pairwise_cons.2 ⟨fun u hu => ?_, List.pairwise_cons.2 h⟩
      rcases List.mem_cons.1 hu with rfl | hu
      · exact st
      · exact String.lt_trans st (h.1 u hu)
    · split
      · exact List.pairwise_cons.2 h
      · rename_i st ne
        have ts' : t < s := by
          rcases String.le_total s t with le | le
          · exact absurd (String.le_antisymm le (String.not_lt.1 st)) ne
          · exact String.not_le.1 fun le' => ne (String.le_antisymm le' le)
        refine List.pairwise_cons.2 ⟨fun u hu => ?_, ih h.2⟩
        rcases mem_insertAscending.1 hu with rfl | hu
        · exact ts'
        · exact h.1 u hu

/-- Symbols in ascending order, each once. -/
structure SymbolSet where
  symbols : List String
  ascending : symbols.Pairwise (· < ·) := by simp
  deriving DecidableEq

namespace SymbolSet

instance : Repr SymbolSet := ⟨fun s => reprPrec s.symbols⟩

instance : Membership String SymbolSet := ⟨fun s x => x ∈ s.symbols⟩

def empty : SymbolSet := ⟨[], by simp⟩

instance : EmptyCollection SymbolSet := ⟨empty⟩

instance : Inhabited SymbolSet := ⟨empty⟩

def insert (x : String) (s : SymbolSet) : SymbolSet :=
  ⟨insertAscending x s.symbols, pairwise_insertAscending s.ascending⟩

def ofList (xs : List String) : SymbolSet := xs.foldr insert empty

def union (s t : SymbolSet) : SymbolSet := s.symbols.foldr insert t

instance : Union SymbolSet := ⟨union⟩

@[simp] theorem not_mem_empty {x : String} : ¬x ∈ (∅ : SymbolSet) := List.not_mem_nil

@[simp] theorem mem_insert {x y : String} {s : SymbolSet} : x ∈ s.insert y ↔ x = y ∨ x ∈ s :=
  mem_insertAscending

theorem mem_foldr_insert {x : String} {ys : List String} {s : SymbolSet} :
    x ∈ ys.foldr insert s ↔ x ∈ ys ∨ x ∈ s := by
  induction ys with
  | nil => simp
  | cons y ys ih => rw [List.foldr_cons, mem_insert, ih, List.mem_cons, or_assoc]

@[simp] theorem mem_ofList {x : String} {ys : List String} : x ∈ ofList ys ↔ x ∈ ys := by
  rw [ofList, mem_foldr_insert]
  exact ⟨fun h => h.resolve_right not_mem_empty, .inl⟩

@[simp] theorem mem_union {x : String} {s t : SymbolSet} : x ∈ s ∪ t ↔ x ∈ s ∨ x ∈ t :=
  mem_foldr_insert

end SymbolSet

end SchemaCompiler
