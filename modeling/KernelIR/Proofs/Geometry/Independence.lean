import KernelIR.Command.Run
import KernelIR.Proofs.Geometry.Hoisting
import KernelIR.Proofs.Safety

namespace KernelIR

namespace Module

variable {m : Module}

/-- Modules that are read have all it takes but for the branches. -/
theorem Intact.regular (h : m.Intact) (hm : m.OnlyBranchesLead) : m.Regular :=
  ⟨h.consistent, fun f hf => (h.framed f hf).linked.distinct, hm⟩

end Module

theorem Compilation.fst_extractGeometry (o : Options) (d : Dialect) (c : Compilation) :
    (extractGeometry o d c).1 = c.module.geometry d := by
  simp only [extractGeometry]
  split <;> rfl

namespace Command

variable {s : Settings} {o : Options} {d : Dialect} {m : Module} {path text : String}

/-- A module that was read is one that was described, perhaps with another name. -/
theorem intact_of_readModule {decode : String → Option ModuleSpec}
    (h : readModule decode path text = .ok m) : m.Intact := by
  unfold readModule at h
  split at h
  · cases h
  · next spec _ =>
    cases hspec : Module.ofSpec spec with
    | error fault => simp [hspec] at h
    | ok m₀ =>
      obtain ⟨declared, ds, hloads⟩ := Description.Loads.of_ofSpec hspec
      simp only [hspec, Except.ok.injEq] at h
      split_ifs at h
      · exact h ▸ hloads.intact.of_perm (.refl _) fun t ht n hn => ⟨t, ht, hn⟩
      · exact h ▸ hloads.intact

/-- What is reported of the geometry depends on nothing else. -/
theorem exists_findGeometry (s : Settings) (o : Options) (d : Dialect)
    (found : Geometry × Option GeometryFault) :
    ∃ dims note failure?,
      ∀ r : Report, r.failure? = none → r.compilation.module.geometry d = found →
      (findGeometry s o d r).out = r.out ++ dims ∧ (findGeometry s o d r).err = r.err ++ note ∧
        (findGeometry s o d r).failure? = failure? := by
  have hfound : ∀ r : Report, r.compilation.module.geometry d = found →
      ∃ c, Compilation.extractGeometry o d r.compilation = (found, c) := by
    intro r hr
    exact ⟨_, Prod.ext ((Compilation.fst_extractGeometry o d r.compilation).trans hr) rfl⟩
  cases hdims : s.dims with
  | false =>
    refine ⟨"", "", none, fun r hr _ => ?_⟩
    simp [findGeometry, hdims, hr]
  | true =>
    obtain ⟨g, fault?⟩ := found
    cases fault? with
    | none =>
      refine ⟨"dims: " ++ g.text ++ "\n", "", none, fun r hr hgeometry => ?_⟩
      obtain ⟨c, hc⟩ := hfound r hgeometry
      simp [findGeometry, hdims, hr, hc, String.append_assoc]
    | some x =>
      refine ⟨"", sizeNote s x, some (.geometry x), fun r hr hgeometry => ?_⟩
      obtain ⟨c, hc⟩ := hfound r hgeometry
      simp [findGeometry, hdims, hr, hc]

/-- With hoisting, the output has one more line after the entry points, and messages may come before
the others. -/
theorem analyze_hoist (hm : m.Intact) (hreg : m.Regular) (s : Settings) (o : Options)
    (d : Dialect) :
    ∃ n dims log, (analyze { s with hoist := false } o d m).out =
        (listEntries s d { compilation := { module := m } }).out ++ dims ∧
      (analyze { s with hoist := true } o d m).out =
      (listEntries s d { compilation := { module := m } }).out ++
        ("hoist: " ++ Number.decimal n ++ " function(s) changed\n") ++ dims ∧
      (analyze { s with hoist := true } o d m).err =
      log ++ (analyze { s with hoist := false } o d m).err ∧
      (analyze { s with hoist := true } o d m).failure? =
      (analyze { s with hoist := false } o d m).failure? := by
  let r := listEntries s d { compilation := { module := m } }
  have hr : r.failure? = none ∧ r.err = "" ∧ r.compilation = { module := m } := by
    simp only [r, listEntries]
    split <;> exact ⟨rfl, rfl, rfl⟩
  obtain ⟨n, c, hrun, -⟩ := Compilation.hoistModule_intact o (c := { module := m }) hm
  have hgeometry : c.module.geometry d = m.geometry d := by
    have hundisturbed := Compilation.undisturbed_hoistModule o (c := { module := m }) hreg
    rw [Edit.after_of_ok hrun] at hundisturbed
    exact hundisturbed.settled.geometry_eq hreg.consistent d
  let r' : Report := { r with
    out := r.out ++ "hoist: " ++ Number.decimal n ++ " function(s) changed\n"
    err := r.err ++ logText c.log
    compilation := c }
  have hoff : analyze { s with hoist := false } o d m = findGeometry s o d r := rfl
  have hon : analyze { s with hoist := true } o d m = findGeometry s o d r' := by
    have hhoisted : hoistModule { s with hoist := true } o r = r' := by
      simp only [hoistModule, hr.2.2, hrun]
      rfl
    show findGeometry s o d (hoistModule { s with hoist := true } o r) = _
    rw [hhoisted]
  obtain ⟨dims, note, failure?, hreport⟩ := exists_findGeometry s o d (m.geometry d)
  obtain ⟨hout, herr, hfailure⟩ := hreport r hr.1 (by rw [hr.2.2])
  obtain ⟨hout', herr', hfailure'⟩ := hreport r' hr.1 hgeometry
  refine ⟨n, dims, logText c.log, hoff ▸ hout, ?_, ?_, ?_⟩
  · rw [hon, hout']
    simp only [r', String.append_assoc]
    rfl
  · rw [hon, hoff, herr', herr]
    simp [r', hr.2.1]
  · rw [hon, hoff, hfailure', hfailure]

variable {w : World Id}

theorem execute_eq (s : Settings) (o : Options) (w : World Id) (path : String) :
    execute s o w path = (process s o w path).run.2.elim 0 Failure.status := by
  rw [execute]
  show Id.run _ = _
  rw [Id.run_bind]
  cases (process s o w path).run with
  | mk stats failure? => cases s.stats <;> cases failure? <;> rfl

theorem process_of_unknown {x : GeometryFault} (hd : Dialect.read s.dialect = .error x) :
    (process s o w path).run.2 = some (.geometry x) := by
  rw [process, hd]
  rfl

theorem process_of_known (hd : Dialect.read s.dialect = .ok d) (hread : w.read path = .ok text)
    (hload : readModule w.decode path text = .ok m) : (process s o w path).run.2 =
      (analyze s o d m).failure?.or (present s w (analyze s o d m).compilation.module).run := by
  have hread' : Id.run (w.read path) = .ok text := hread
  simp only [process, hd, Id.run_bind, hread', hload]
  cases (analyze s o d m).failure? <;> rfl

/-- Nothing but the drawings can go wrong once the analyses are done. -/
theorem status_present (s : Settings) (w : World Id) (m : Module) :
    (present s w m).run.elim 0 Failure.status =
    if s.dot ≠ "" ∧ (w.write s.dot (drawings m)).run.isOk = false then 1 else 0 := by
  rw [present]
  by_cases hdot : s.dot = ""
  · have hnone : ¬(s.dot ≠ "" ∧ (w.write s.dot (drawings m)).run.isOk = false) := fun h => h.1 hdot
    rw [if_neg (not_not_intro hdot), if_neg hnone]
    cases s.prints <;> rfl
  · rw [if_pos hdot]
    show Option.elim (Id.run (_ >>= _)) 0 _ = _
    rw [Id.run_bind]
    cases hwrite : (w.write s.dot (drawings m)).run with
    | error message => exact (if_pos ⟨hdot, rfl⟩).symm
    | ok _ =>
      have hnone : ¬(s.dot ≠ "" ∧ Except.isOk (.ok () : Except String Unit) = false) :=
        fun h => Bool.noConfusion h.2
      rw [if_neg hnone]
      cases s.prints <;> rfl

/-- The status depends on the module only in whether its analyses fail. -/
theorem execute_hoist (hm : m.Intact) (hreg : m.Regular) (s : Settings) (o : Options)
    (hread : w.read path = .ok text) (hload : readModule w.decode path text = .ok m)
    (hwrite : ∀ t t', (w.write s.dot t).run.isOk = (w.write s.dot t').run.isOk) :
    execute { s with hoist := true } o w path = execute { s with hoist := false } o w path := by
  rw [execute_eq, execute_eq]
  cases hd : Dialect.read s.dialect with
  | error x =>
    rw [process_of_unknown (s := { s with hoist := true }) hd,
      process_of_unknown (s := { s with hoist := false }) hd]
  | ok d =>
    obtain ⟨_, _, _, _, _, _, hfailure⟩ := analyze_hoist hm hreg s o d
    rw [process_of_known (s := { s with hoist := true }) hd hread hload,
      process_of_known (s := { s with hoist := false }) hd hread hload, hfailure]
    cases (analyze { s with hoist := false } o d m).failure? with
    | some x => rfl
    | none =>
      rw [Option.none_or, Option.none_or, status_present, status_present]
      simp only [hwrite _ ""]

/-- Hoisting changes neither the geometry that is found nor the fault that is met, nor the entry
points. A command that hoists as well writes the same about the geometry and ends with the same
status, if a file can be written or not whatever is drawn, however texts are taken for
descriptions. -/
theorem hoisting_keeps_geometry {c : Compilation} (hc : c.module.Regular) (o o' : Options)
    (d : Dialect) :
    (Compilation.extractGeometry o' d ((Compilation.hoistModule o).after c)).1 =
        (Compilation.extractGeometry o' d c).1 ∧
      (((Compilation.hoistModule o).after c).module.entryPoints d).map Func.signature =
        (c.module.entryPoints d).map Func.signature ∧
      ∀ decode path text, readModule decode path text = .ok c.module → ∀ s : Settings,
        (∃ n dims log, (analyze { s with hoist := false } o d c.module).out =
            (listEntries s d { compilation := { module := c.module } }).out ++ dims ∧
          (analyze { s with hoist := true } o d c.module).out =
            (listEntries s d { compilation := { module := c.module } }).out ++
              ("hoist: " ++ Number.decimal n ++ " function(s) changed\n") ++ dims ∧
          (analyze { s with hoist := true } o d c.module).err =
            log ++ (analyze { s with hoist := false } o d c.module).err ∧
          (analyze { s with hoist := true } o d c.module).failure? =
            (analyze { s with hoist := false } o d c.module).failure?) ∧
        ∀ w : World Id, w.decode = decode → w.read path = .ok text →
          (∀ t t', (w.write s.dot t).run.isOk = (w.write s.dot t').run.isOk) →
            execute { s with hoist := true } o w path =
            execute { s with hoist := false } o w path := by
  have hsettled := (Compilation.undisturbed_hoistModule o hc).settled
  refine ⟨?_, hsettled.entryPoints_eq d, fun decode path text hload s => ?_⟩
  · rw [Compilation.fst_extractGeometry, Compilation.fst_extractGeometry,
      hsettled.geometry_eq hc.consistent d]
  · have hm := intact_of_readModule hload
    refine ⟨analyze_hoist hm hc s o d, fun w hdecode hread hwrite => ?_⟩
    exact execute_hoist hm hc s o hread (hdecode ▸ hload) hwrite

/-- A product that can be moved out of a loop, and the function for the size of a group, together
with further functions. -/
def loopBeside (functions : List FuncSpec) : ModuleSpec where
  functions := [
    { name := "f", params := [⟨"n", "i32"⟩, ⟨"c", "i1"⟩]
      blocks := [
        ⟨"top", [{ op := "br", args := ["%c"], targets := ["again", "end"] }]⟩,
        ⟨"again", [{ name := "u", op := "mul", args := ["%n", "i32 3"] },
          { op := "br", args := ["%c"], targets := ["again", "end"] }]⟩,
        ⟨"end", [{ op := "ret" }]⟩] },
    { name := "get_local_size", ret := "i64", params := [⟨"d", "i32"⟩] }] ++ functions

/-- A marker which says that a group has 16 items. -/
def marker : FuncSpec where
  name := "__axiom_x"
  ret := "i1"
  blocks := [
    ⟨"e", [{ name := "s", op := "call", args := ["@get_local_size", "i32 0"] },
      { name := "c", op := "icmp", pred := "eq", args := ["%s", "i64 16"] },
      { op := "ret", args := ["%c"] }]⟩]

/-- Every file holds the same description, and can be written. -/
def holding (spec : ModuleSpec) : World Id where
  read _ := .ok ""
  write _ _ := .ok ()
  out _ := ()
  err _ := ()
  decode _ := some spec

/-- With a marker its size is found after hoisting as well. Where a marker is only declared, the
command misses the geometry either way. -/
theorem loopBeside_keeps_geometry :
    (∃ m, Module.ofSpec (loopBeside [marker]) = .ok m ∧ (Compilation.extractGeometry {} .opencl
      ((Compilation.hoistModule { insertPreheaders := true }).after { module := m })).1.1.value
        .item 0 = 16) ∧
    ∃ m, readModule (holding (loopBeside [{ name := "__axiom" }])).decode "m" "" = .ok m ∧
      m.Regular ∧ execute { dialect := "opencl", dims := true, hoist := true } {}
          (holding (loopBeside [{ name := "__axiom" }])) "m" =
        execute { dialect := "opencl", dims := true } {}
          (holding (loopBeside [{ name := "__axiom" }])) "m" := by
  have hmarked : ∃ m, Module.ofSpec (loopBeside [marker]) = .ok m ∧ m.OnlyBranchesLead ∧
      (m.geometry .opencl).1.value .item 0 = 16 := Description.exists_ok_of_any (by decide +kernel)
  have hbare :
      ∃ m, readModule (holding (loopBeside [{ name := "__axiom" }])).decode "m" "" = .ok m ∧
      m.OnlyBranchesLead := Description.exists_ok_of_any (by decide +kernel)
  obtain ⟨m, hm, hbranches, hgeometry⟩ := hmarked
  obtain ⟨m', hm', hbranches'⟩ := hbare
  obtain ⟨declared, ds, hloads⟩ := Description.Loads.of_ofSpec hm
  have hregular' : m'.Regular := (intact_of_readModule hm').regular hbranches'
  refine ⟨⟨m, hm, ?_⟩, m', hm', hregular', ?_⟩
  · rw [(hoisting_keeps_geometry (c := { module := m }) (hloads.intact.regular hbranches) _
      {} .opencl).1, Compilation.fst_extractGeometry]
    exact hgeometry
  · have hcommand :=
      (hoisting_keeps_geometry (c := { module := m' }) hregular' {} {} .opencl).2.2 _ "m" "" hm'
    exact (hcommand { dialect := "opencl", dims := true }).2 _ rfl rfl fun _ _ => rfl

end Command

end KernelIR
