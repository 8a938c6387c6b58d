import SchemaCompiler.Proofs.Compile.Comparison
import SchemaCompiler.Proofs.Compile.Whole
import SchemaCompiler.Proofs.Generate.Operations

/-!
# Compiling again

Compiling a schema generates the definitions that it needs, and makes some of those recursive that
are being generated. All of this is done after the first time: compiled again, at any later point
(`Table.Keeps`), the schema gives the same validator and leaves the table of definitions as it is
(`compile_again`). This holds in any state, also in the middle of generating definitions, whether
these have to do with the schema or not.
-/

namespace SchemaCompiler

variable {defs : List Definition} {maxDepth : Nat}

/-! ## What is kept -/

/-- What compilations do not change in a table: which definitions are being generated, the bindings
of recursive ones, and all of those that are finished and not being generated again. -/
structure Table.Keeps (t t' : Table defs) : Prop where
  processing : ∀ i, t'.isProcessing i = t.isProcessing i
  ownBinding : ∀ i, t.isRecursive i → (t'.progress.get i).ownBinding = (t.progress.get i).ownBinding
  finished : ∀ i, t.isProcessing i = false → (t.generated? i).isSome →
    t'.progress.get i = t.progress.get i

namespace Table.Keeps

variable {t t' t'' : Table defs} {i : Fin defs.length}

theorem refl (t : Table defs) : t.Keeps t := ⟨fun _ => rfl, fun _ _ => rfl, fun _ _ _ => rfl⟩

theorem isRecursive (h : t.Keeps t') (hi : t.isRecursive i) : t'.isRecursive i := by
  unfold Table.isRecursive
  rwa [h.ownBinding i hi]

theorem isSome_generated? (h : t.Keeps t') (idle : t.isProcessing i = false)
    (hi : (t.generated? i).isSome) : (t'.generated? i).isSome := by
  unfold Table.generated?
  rwa [h.finished i idle hi]

theorem trans (h : t.Keeps t') (h' : t'.Keeps t'') : t.Keeps t'' where
  processing i := (h'.processing i).trans (h.processing i)
  ownBinding i hi := (h'.ownBinding i (h.isRecursive hi)).trans (h.ownBinding i hi)
  finished i idle hi := by
    have idle' : t'.isProcessing i = false := by rw [h.processing i, idle]
    exact (h'.finished i idle' (h.isSome_generated? idle hi)).trans (h.finished i idle hi)

theorem markRecursive (hi : t.isProcessing i) : t.Keeps (t.markRecursive i) where
  processing j := t.isProcessing_markRecursive i j
  ownBinding j hj := by
    rw [get_markRecursive, if_neg]
    rintro ⟨rfl, plain⟩
    exact absurd (hj.symm.trans plain) (by decide)
  finished j idle _ := by
    rw [get_markRecursive, if_neg]
    rintro ⟨rfl, _⟩
    exact absurd (hi.symm.trans idle) (by decide)

/-- A definition that is started and finished in between is one that was not finished before. -/
theorem generated {r : Run defs} {v : Validator} (idle : r.table.isProcessing i = false)
    (missing : r.table.generated? i = none) {between : Run defs}
    (h : (r.enter i).table.Keeps between.table) : r.table.Keeps (between.leave i v).table where
  processing j := by
    show (between.table.finish i v).isProcessing j = _
    rw [isProcessing_finish]
    by_cases e : i = j
    · rw [if_pos e, ← e, idle]
    · rw [if_neg e, h.processing j]
      show (r.table.start i).isProcessing j = _
      rw [isProcessing_start, if_neg e]
  ownBinding j hj := by
    have entered : (r.enter i).table.isRecursive j := by simpa [Run.enter] using hj
    have left := field_modify (·.ownBinding)
      (fun p => { p with processing := false, generated := some v }) (fun _ => rfl)
      between.table i j
    have started := field_modify (·.ownBinding)
      (fun p => { p with processing := true }) (fun _ => rfl) r.table i j
    exact (left.trans (h.ownBinding j entered)).trans started
  finished j hj hg := by
    have e : i ≠ j := by
      rintro rfl
      rw [missing] at hg
      exact absurd hg (by decide)
    have same : (r.enter i).table.progress.get j = r.table.progress.get j := by
      show (r.table.start i).progress.get j = _
      rw [get_start, if_neg e]
    have idle' : (r.enter i).table.isProcessing j = false := by
      rw [← hj]
      exact congrArg Progress.processing same
    have done : ((r.enter i).table.generated? j).isSome := by
      rw [← hg]
      exact congrArg (·.generated.isSome) same
    show (between.table.finish i v).progress.get j = _
    rw [get_finish, if_neg e, h.finished j idle' done, same]

end Table.Keeps

section Kept

variable {r : Run defs} {generate : Fin defs.length → StateM (Run defs) Unit}

theorem keeps_resolveWith
    (gen : ∀ i (r : Run defs), r.table.isProcessing i = false → r.table.generated? i = none →
      r.table.Keeps ((generate i).run r).2.table)
    (pointer : String) (site : Site) (r : Run defs) :
    r.table.Keeps ((resolveWith generate pointer site).run r).2.table := by
  cases resolveWith_cases generate pointer site r with
  | dangling found run =>
    rw [run]
    exact .refl _
  | lazy i found processing run =>
    rw [run]
    exact .markRecursive processing
  | new i found waiting missing run =>
    rw [run]
    exact gen i r waiting missing
  | old i found waiting finished run =>
    rw [run]
    exact .refl _

theorem keeps_compileWithin
    (gen : ∀ i (r : Run defs), r.table.isProcessing i = false → r.table.generated? i = none →
      r.table.Keeps ((generate i).run r).2.table)
    (room : Nat) (schema : Schema) (site : Site) (r : Run defs) :
    r.table.Keeps ((compileWithin (handlers generate) room schema site).run r).2.table := by
  refine compileWithin_keeps (P := fun r' : Run defs => r.table.Keeps r'.table)
    (fun pointer site r' h => ?_) (fun name site r' h => ?_) room schema site (.refl _)
  · exact h.trans (keeps_resolveWith gen pointer site r')
  · exact h

theorem keeps_generateWithin (fuel : Nat) (i : Fin defs.length) (r : Run defs)
    (idle : r.table.isProcessing i = false) (missing : r.table.generated? i = none) :
    r.table.Keeps ((generateWithin maxDepth fuel i).run r).2.table := by
  induction fuel generalizing i r with
  | zero => exact .refl _
  | succ fuel ih =>
    rw [run_generateWithin maxDepth fuel idle]
    exact .generated idle missing (keeps_compileWithin ih _ _ _ _)

theorem keeps_compile (maxDepth : Nat) (schema : Schema) (site : Site) (r : Run defs) :
    r.table.Keeps ((compile maxDepth schema site).run r).2.table :=
  keeps_compileWithin (keeps_generateWithin _) _ schema site r

end Kept

/-! ## References -/

section References

variable {t t' : Table defs} {r : Run defs} {pointer : String}

/-- What a reference compiles to if nothing has to be generated for it. -/
def Table.answer (t : Table defs) (pointer : String) : Validator :=
  match lookup? defs pointer with
  | none => .any
  | some i => if t.isProcessing i then t.lazyReferenceTo i else t.referenceTo i

/-- A reference can be answered from the table as it is. -/
def Table.Ready (t : Table defs) (pointer : String) : Prop :=
  ∀ i, lookup? defs pointer = some i →
    if t.isProcessing i then t.isRecursive i else (t.generated? i).isSome

theorem Table.Keeps.ready (h : t.Keeps t') (ready : t.Ready pointer) : t'.Ready pointer := by
  intro i found
  have ready := ready i found
  rw [h.processing i]
  split
  next processing => exact h.isRecursive (by simpa [processing] using ready)
  next idle =>
    have idle : t.isProcessing i = false := by simpa using idle
    exact h.isSome_generated? idle (by simpa [idle] using ready)

theorem Table.Keeps.answer (h : t.Keeps t') (ready : t.Ready pointer) :
    t'.answer pointer = t.answer pointer := by
  unfold Table.answer
  cases found : lookup? defs pointer with
  | none => rfl
  | some i =>
    have ready := ready i found
    simp only [h.processing i]
    split
    next processing =>
      have recursive : t.isRecursive i := by simpa [processing] using ready
      simp only [Table.lazyReferenceTo, Table.binding, h.ownBinding i recursive]
    next idle =>
      have idle : t.isProcessing i = false := by simpa using idle
      have finished : (t.generated? i).isSome := by simpa [idle] using ready
      unfold Table.referenceTo Table.binding Table.type? Table.isRecursive Table.generated?
      rw [h.finished i idle finished]

/-- A reference that can be answered is answered, and the table is left as it is. -/
theorem resolveWith_of_ready (generate : Fin defs.length → StateM (Run defs) Unit) (site : Site)
    (ready : r.table.Ready pointer) :
    ((resolveWith generate pointer site).run r).1 = r.table.answer pointer ∧
      ((resolveWith generate pointer site).run r).2.table = r.table := by
  unfold Table.answer
  cases found : lookup? defs pointer with
  | none =>
    rw [run_resolveWith_none site found]
    exact ⟨rfl, rfl⟩
  | some i =>
    have ready := ready i found
    by_cases processing : r.table.isProcessing i
    · have recursive : r.table.isRecursive i := by simpa [processing] using ready
      rw [run_resolveWith_lazy site found processing, Table.markRecursive_of_isRecursive recursive]
      simp [processing]
    · have idle : r.table.isProcessing i = false := by simpa using processing
      rw [run_resolveWith_old site found idle (by simpa [idle] using ready)]
      simp [idle]

/-- A reference that has been compiled can be answered from then on, as it was. -/
theorem ready_resolve (maxDepth : Nat) (pointer : String) (site : Site) (r : Run defs) :
    ((resolve maxDepth pointer site).run r).2.table.Ready pointer ∧
      ((resolve maxDepth pointer site).run r).1 =
        ((resolve maxDepth pointer site).run r).2.table.answer pointer := by
  unfold resolve Table.Ready Table.answer
  cases resolveWith_cases (generate maxDepth) pointer site r with
  | dangling found run =>
    rw [run, found]
    exact ⟨nofun, rfl⟩
  | lazy i found processing run =>
    rw [run]
    simp [found, processing, Table.isRecursive_markRecursive]
  | new i found waiting missing run =>
    have kept : r.table.Keeps ((generate maxDepth i).run r).2.table :=
      keeps_generateWithin _ i r waiting missing
    rw [run]
    simp [found, kept.processing i, waiting, isSome_generated?_generate maxDepth waiting]
  | old i found waiting finished run =>
    rw [run]
    simp [found, waiting, finished]

end References

/-! ## Reports -/

/-- Two runs with the same table, whatever they have reported. -/
def besideReports (defs : List Definition) : Comparison (Run defs) (Run defs) where
  Sites _ _ := True
  under _ _ := trivial
  member _ _ _ := trivial
  Related r r' := r.table = r'.table
  Moves _ _ := True
  refl _ := trivial
  trans _ _ := trivial
  Settled _ := True
  settled_of_moves _ _ := trivial

theorem alike_besideReports {generate : Fin defs.length → StateM (Run defs) Unit}
    (gen : ∀ i, (besideReports defs).Alike (generate i) (generate i)) (room : Nat)
    (schema : Schema) (a b : Site) :
    (besideReports defs).Alike (compileWithin (handlers generate) room schema a)
      (compileWithin (handlers generate) room schema b) := by
  refine Comparison.alike_compileWithin (fun name a b _ r r' same => ?_) room
    (fun pointer _ a b _ r r' same => ?_) trivial
  · exact ⟨same, trivial, fun _ => rfl⟩
  have same : r.table = r'.table := same
  have run : ∀ site,
      (handlers generate).reference pointer site = resolveWith generate pointer site := fun _ => rfl
  rw [run, run]
  cases found : lookup? defs pointer with
  | none =>
    rw [run_resolveWith_none a found, run_resolveWith_none b found]
    exact ⟨same, trivial, fun _ => rfl⟩
  | some i =>
    by_cases processing : r.table.isProcessing i
    · rw [run_resolveWith_lazy a found processing,
        run_resolveWith_lazy b found (same ▸ processing), ← same]
      exact ⟨rfl, trivial, fun _ => rfl⟩
    · have idle : r.table.isProcessing i = false := by simpa using processing
      cases generated : r.table.generated? i with
      | none =>
        obtain ⟨tables, -, -⟩ := gen i r r' same
        have tables : ((generate i).run r).2.table = ((generate i).run r').2.table := tables
        rw [run_resolveWith_new a found idle generated,
          run_resolveWith_new b found (same ▸ idle) (same ▸ generated), ← tables]
        exact ⟨tables, trivial, fun _ => rfl⟩
      | some v =>
        have finished : (r.table.generated? i).isSome := Option.isSome_of_eq_some generated
        rw [run_resolveWith_old a found idle finished,
          run_resolveWith_old b found (same ▸ idle) (same ▸ finished), ← same]
        exact ⟨same, trivial, fun _ => rfl⟩

theorem generateWithin_besideReports (fuel : Nat) (i : Fin defs.length) :
    (besideReports defs).Alike (generateWithin maxDepth fuel i)
      (generateWithin maxDepth fuel i) := by
  induction fuel generalizing i with
  | zero => exact Comparison.alike_pure ()
  | succ fuel ih =>
    intro r r' same
    have same : r.table = r'.table := same
    refine ⟨?_, trivial, fun _ => rfl⟩
    by_cases processing : r.table.isProcessing i
    · rw [run_generateWithin_again maxDepth fuel processing,
        run_generateWithin_again maxDepth fuel (same ▸ processing)]
      exact same
    · have idle : r.table.isProcessing i = false := by simpa using processing
      have entered : (r.enter i).table = (r'.enter i).table := congrArg (·.start i) same
      obtain ⟨tables, -, value⟩ := alike_besideReports ih (roomAt maxDepth 0) (defs.get i).schema
        (.ofDefinition (defs.get i).pointer) (.ofDefinition (defs.get i).pointer) _ _ entered
      rw [run_generateWithin maxDepth fuel idle, run_generateWithin maxDepth fuel (same ▸ idle)]
      show Table.finish _ i _ = Table.finish _ i _
      exact congr (congrArg (Table.finish · i) tables) (value trivial)

/-- What has been reported makes no difference to what a schema compiles to. -/
theorem compile_congr_table (maxDepth : Nat) {r r' : Run defs} (same : r.table = r'.table)
    (schema : Schema) {a b : Site} (depth : a.depth = b.depth) :
    ((compile maxDepth schema a).run r).1 = ((compile maxDepth schema b).run r').1 ∧
      ((compile maxDepth schema a).run r).2.table =
        ((compile maxDepth schema b).run r').2.table := by
  unfold compile
  rw [depth]
  obtain ⟨tables, -, value⟩ :=
    alike_besideReports (generateWithin_besideReports defs.length) (roomAt maxDepth b.depth) schema
      a b r r' same
  exact ⟨value trivial, tables⟩

/-! ## Compilations -/

/-- A first compilation beside a second one that starts from the table `t`, which keeps what the
first one has reached in the end. -/
def besideLater (t : Table defs) : Comparison (Run defs) (Run defs) where
  Sites _ _ := True
  under _ _ := trivial
  member _ _ _ := trivial
  Related r r' := r.table.Keeps t → r'.table = t
  Moves p q := p.1.table.Keeps q.1.table
  refl p := .refl p.1.table
  trans := .trans
  Settled p := p.1.table.Keeps t
  settled_of_moves := .trans

theorem alike_besideLater (t : Table defs) (room : Nat) (schema : Schema) (a b : Site) :
    (besideLater t).Alike (compileWithin (handlers (generate maxDepth)) room schema a)
      (compileWithin (handlers (generate maxDepth)) room schema b) := by
  refine Comparison.alike_compileWithin (fun name a b _ r r' same => ?_) room
    (fun pointer _ a b _ r r' same => ?_) trivial
  · exact ⟨same, .refl _, fun _ => rfl⟩
  · have grows : r.table.Keeps ((resolve maxDepth pointer a).run r).2.table :=
      keeps_resolveWith (keeps_generateWithin _) pointer a r
    obtain ⟨ready, value⟩ := ready_resolve maxDepth pointer a r
    -- Where the first run has answered the reference for good, the second one finds the answer.
    have second : ((resolve maxDepth pointer a).run r).2.table.Keeps t →
        ((resolve maxDepth pointer b).run r').1 = t.answer pointer ∧
          ((resolve maxDepth pointer b).run r').2.table = t := by
      intro kept
      have table : r'.table = t := same (grows.trans kept)
      have := resolveWith_of_ready (generate maxDepth) b
        (table.symm ▸ kept.ready ready)
      rwa [table] at this
    refine ⟨fun kept => (second kept).2, grows, fun kept => ?_⟩
    exact value.trans ((kept.answer ready).symm.trans (second kept).1.symm)

/-- Compiled again at a later point, a schema gives the same validator and leaves the table of
definitions as it is. -/
theorem compile_again {r later : Run defs} (schema : Schema) {site : Site}
    (h : ((compile maxDepth schema site).run r).2.table.Keeps later.table) {again : Site}
    (depth : again.depth = site.depth) :
    ((compile maxDepth schema again).run later).1 = ((compile maxDepth schema site).run r).1 ∧
      ((compile maxDepth schema again).run later).2.table = later.table := by
  unfold compile at h ⊢
  rw [depth]
  obtain ⟨table, -, value⟩ :=
    alike_besideLater later.table (roomAt maxDepth site.depth) schema site again r later
      fun _ => rfl
  exact ⟨(value h).symm, table h⟩

end SchemaCompiler
