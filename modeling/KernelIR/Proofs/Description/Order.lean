import KernelIR.Proofs.Description.Inference
import KernelIR.Proofs.Description.Renumbering

namespace KernelIR

namespace Description

/-- The place that each item of a list has in another one. -/
def placeIn (l l' : List FuncSpec) (i : Nat) : Nat :=
  match l[i]? with
  | some s => l'.idxOf s
  | none => i

section

variable {l l' : List FuncSpec}

theorem placeIn_of_getElem? {i : Nat} {s : FuncSpec} (h : l[i]? = some s) :
    placeIn l l' i = l'.idxOf s := by
  rw [placeIn, h]

theorem placeIn_injective (hn : l.Nodup) (hperm : l'.Perm l) :
    Function.Injective (placeIn l l') := by
  have hlt : ∀ {i s}, l[i]? = some s → placeIn l l' i < l.length := by
    intro i s hs
    rw [placeIn_of_getElem? hs, ← hperm.length_eq]
    exact List.idxOf_lt_length_of_mem (hperm.mem_iff.mpr (List.mem_of_getElem? hs))
  intro i j hij
  cases hi : l[i]? with
  | none =>
    have hleft : placeIn l l' i = i := by rw [placeIn, hi]
    cases hj : l[j]? with
    | none => rwa [hleft, placeIn, hj] at hij
    | some t =>
      have hj := hlt hj
      rw [← hij, hleft] at hj
      exact absurd hj (Nat.not_lt.mpr (List.getElem?_eq_none_iff.mp hi))
  | some s =>
    cases hj : l[j]? with
    | none =>
      have hi := hlt hi
      rw [hij, placeIn, hj] at hi
      exact absurd hi (Nat.not_lt.mpr (List.getElem?_eq_none_iff.mp hj))
    | some t =>
      rw [placeIn_of_getElem? hi, placeIn_of_getElem? hj] at hij
      have hmem : s ∈ l' := hperm.mem_iff.mpr (List.mem_of_getElem? hi)
      have hst : s = t := (List.idxOf_inj hmem).mp hij
      exact (List.getElem?_inj (List.getElem?_eq_some_iff.mp hi).1 hn).mp (by rw [hi, hj, hst])

theorem zipIdx_perm (hn : l.Nodup) (hperm : l'.Perm l) :
    l'.zipIdx.Perm (l.zipIdx.map (Prod.map id (placeIn l l'))) := by
  have hleft : l'.zipIdx = l'.map fun s => (s, l'.idxOf s) := by
    apply List.ext_getElem
    · simp
    · intro i h₁ h₂
      simp [(hperm.nodup_iff.mpr hn).idxOf_getElem]
  have hright : l.zipIdx.map (Prod.map id (placeIn l l')) = l.map fun s => (s, l'.idxOf s) := by
    apply List.ext_getElem
    · simp
    · intro i h₁ h₂
      have hi : i < l.length := by simpa using h₂
      simp [placeIn_of_getElem? (List.getElem?_eq_getElem hi)]
  rw [hleft, hright]
  exact hperm.map _

end

/-- The names of the functions are those described. -/
theorem Loads.map_name {spec : ModuleSpec} {m declared : Module} {ds : List FuncDraft}
    (h : Loads spec declared ds m) :
    m.functions.map Func.name = spec.functions.map FuncSpec.name := by
  refine (map_eq_of_forall₂ (forall₂_trans h.follows h.resolves) fun s f hsf => ?_).symm
  obtain ⟨d, _, hs, hf⟩ := hsf
  rw [hf.name, hs.name]

/-- Functions that are declared in another order get other numbers, and nothing else changes. -/
theorem declareFuncs_renumber {m m₁ : Module} {ss fs : List FuncSpec} {ds : List FuncDraft}
    (h : declareFuncs m 0 ss = .ok (m₁, ds)) (hempty : m.functions = [] ∧ m.dropped = [] ∧
      m.tables = [])
    (hn : m.symbols.Nodup) (hperm : fs.Perm ss) :
    ∃ m₁' ds', declareFuncs m 0 fs = .ok (m₁', ds') ∧
      ds'.Perm (ds.map (FuncDraft.renumber (placeIn ss fs))) ∧
      Function.Injective (placeIn ss fs) ∧ m₁.Renumbers (placeIn ss fs) m₁' := by
  obtain ⟨hfunctions, hdropped, htables⟩ := hempty
  obtain ⟨hm₁, hfollows, hids, hdistinct⟩ := declareFuncs_ok h
  rw [hfunctions, List.nil_append] at hm₁
  have hnames : ss.map FuncSpec.name = ds.map fun d => d.func.name :=
    map_eq_of_forall₂ hfollows fun s d hd => hd.name.symm
  have hsymbols : (m.symbols ++ ss.map FuncSpec.name).Nodup := by
    have hall := hdistinct hn
    rw [hm₁] at hall
    simpa [Module.symbols, hfunctions, hnames, Function.comp_def] using hall
  have hss : ss.Nodup := List.Nodup.of_map _ (List.nodup_append.mp hsymbols).2.1
  have hzero : m.nextFunc = 0 := by simp [Module.nextFunc, Module.known, hfunctions, hdropped]
  have hdrafts := declareFuncs_drafts h
  rw [hzero] at hdrafts
  -- A draft depends on the number of the function, not on what was declared before, as long as its
  -- name is free.
  have hmoved : List.Forall₂
      (fun p d => ∀ m' j, m'.nextFunc = p.2 → p.1.name ∉ m'.symbols → declareFunc m' j p.1 = .ok d)
      (ss.zipIdx.map (Prod.map id (placeIn ss fs)))
      (ds.map (FuncDraft.renumber (placeIn ss fs))) := by
    rw [List.forall₂_map_left_iff, List.forall₂_map_right_iff]
    refine hdrafts.imp fun p d hd => ?_
    obtain ⟨m₂, j, hid, hd⟩ := hd
    intro m' j' hid' hfresh
    exact declareFunc_renumber j' hd (by rw [hid', hid]; rfl) hfresh
  obtain ⟨ds', hds', hpermuted⟩ := List.perm_comp_forall₂ (zipIdx_perm hss hperm) hmoved
  have hfresh : (m.symbols ++ fs.map FuncSpec.name).Nodup :=
    ((hperm.map FuncSpec.name).append_left m.symbols).nodup_iff.mpr hsymbols
  refine ⟨_, ds', declareFuncs_of_drafts 0 hfresh (hzero ▸ hds'), hpermuted,
    placeIn_injective hss hperm, ?_⟩
  rw [hm₁]
  refine ⟨rfl, ?_, ⟨hdropped, hdropped⟩, by simp [htables], ?_, ?_⟩
  · rw [hfunctions, List.nil_append]
    simpa [Function.comp_def, FuncDraft.renumber] using hpermuted.map FuncDraft.func
  · have hall := (List.nodup_append.mp hsymbols).2.1
    rw [hnames] at hall
    simpa [Function.comp_def] using hall
  · have hall := hids hdropped
    rw [hfunctions] at hall
    simpa [Function.comp_def, hall] using List.nodup_range'

/-- If the functions are described in another order, the module is the same up to their numbers. -/
theorem exists_renumbered {spec : ModuleSpec} {m : Module} (h : Module.ofSpec spec = .ok m)
    {fs : List FuncSpec} (hperm : fs.Perm spec.functions) :
    ∃ σ m', Function.Injective σ ∧ Module.ofSpec { spec with functions := fs } = .ok m' ∧
      m.Renumbers σ m' := by
  obtain ⟨_, _, hload⟩ := Loads.of_ofSpec h
  -- Names and numbers of the finished functions are distinct; the tables that follow do not change
  -- that.
  have hsymbols := hload.nodup_symbols
  have hids := hload.consistent.funcs
  obtain ⟨m₀, hglobals, h⟩ := bind_eq_ok.mp h
  obtain ⟨⟨m₁, ds⟩, hdeclared, h⟩ := bind_eq_ok.mp h
  obtain ⟨functions, hresolved, htables⟩ := bind_eq_ok.mp h
  obtain ⟨tables, rfl, _⟩ := readTables_ok htables
  obtain ⟨gs, hm₀, _, hdistinct⟩ := readGlobals_ok hglobals
  obtain ⟨m₁', ds', hdeclared', hdrafts, hσ, hm₁⟩ := declareFuncs_renumber hdeclared
    ⟨by rw [hm₀], by rw [hm₀], by rw [hm₀]⟩ (hdistinct List.nodup_nil) hperm
  obtain ⟨functions', hresolved', hpermuted⟩ :=
    List.perm_comp_forall₂ hdrafts (resolveFuncs_renumber hm₁ hσ hresolved)
  have hfilled :
      Module.Renumbers (placeIn spec.functions fs) { m₁ with functions }
        { m₁' with functions := functions' } := by
    refine ⟨hm₁.globals, hpermuted, hm₁.dropped, hm₁.tables,
      (List.nodup_append.mp hsymbols).2.1, ?_⟩
    rw [Module.known, List.map_append, List.nodup_append] at hids
    exact hids.1
  obtain ⟨m', hm', hren⟩ := readTables_renumber hfilled htables
  refine ⟨_, m', hσ, ?_, hren⟩
  exact bind_eq_ok.mpr ⟨m₀, hglobals,
    bind_eq_ok.mpr ⟨_, hdeclared', bind_eq_ok.mpr ⟨_, resolveFuncs_eq_ok hresolved', hm'⟩⟩⟩

end Description

namespace Module

/-- The order in which functions are described does not matter: a description is accepted in one
order if it is in another, and then each function has the same text, intrinsic and block numbers,
the functions stand in the order described, and the variables and tables are printed alike. -/
theorem ofSpec_ignores_order (spec : ModuleSpec) {fs : List FuncSpec}
    (hperm : fs.Perm spec.functions) :
    (ofSpec { spec with functions := fs }).isOk = (ofSpec spec).isOk ∧
    ∀ m m', ofSpec spec = .ok m → ofSpec { spec with functions := fs } = .ok m' →
      m.functions.map Func.name = spec.functions.map FuncSpec.name ∧
      m'.functions.map Func.name = fs.map FuncSpec.name ∧
      (∀ f ∈ m.functions, ∀ f' ∈ m'.functions, f'.name = f.name →
        f'.print m'.scope = f.print m.scope ∧ f'.intrinsic = f.intrinsic ∧
          f'.blocks.map Block.id = f.blocks.map Block.id) ∧
      m'.globals.map Global.print = m.globals.map Global.print ∧
      m'.tables.map (MetadataTable.print m'.scope) =
      m.tables.map (MetadataTable.print m.scope) := by
  constructor
  · rw [Bool.eq_iff_iff]
    constructor
    · intro h
      obtain ⟨m', hm'⟩ := Description.exists_of_isOk h
      obtain ⟨_, m, _, hm, _⟩ := Description.exists_renumbered hm' hperm.symm
      have hm : ofSpec spec = .ok m := hm
      rw [hm]
      rfl
    · intro h
      obtain ⟨m, hm⟩ := Description.exists_of_isOk h
      obtain ⟨_, m', _, hm', _⟩ := Description.exists_renumbered hm hperm
      rw [hm']
      rfl
  · intro m m' hm hm'
    obtain ⟨_, _, hload⟩ := Description.Loads.of_ofSpec hm
    obtain ⟨_, _, hload'⟩ := Description.Loads.of_ofSpec hm'
    obtain ⟨σ, m'', hσ, hm'', hren⟩ := Description.exists_renumbered hm hperm
    rw [hm', Except.ok.injEq] at hm''
    subst hm''
    have hscope := hren.scope hσ hload.consistent hload'.consistent
    refine ⟨hload.map_name, hload'.map_name, ?_, by rw [hren.globals], ?_⟩
    · intro f hf f' hf' hname
      have hmoved : f.renumber σ ∈ m'.functions :=
        hren.functions.mem_iff.mpr (List.mem_map_of_mem hf)
      have hnames : (m'.functions.map Func.name).Nodup :=
        (List.nodup_append.mp hload'.nodup_symbols).2.1
      have heq : f' = f.renumber σ := List.inj_on_of_nodup_map hnames hf' hmoved hname
      rw [heq]
      exact ⟨hscope.printFunc f, rfl, by simp [Func.renumber, Block.renumber, Function.comp_def]⟩
    · rw [hren.tables, List.map_map]
      exact List.map_congr_left fun t _ => hscope.printTable t

/-- Two functions that call each other, a variable that both use, and a table that names both. -/
def mutualCalls : ModuleSpec where
  globals := [⟨"turns", "i32*"⟩]
  functions := [
    { name := "left", ret := "i64", params := [⟨"n", "i32"⟩]
      blocks := [
        ⟨"", [
          { name := "t", op := "load", type := "i32", args := ["@turns"] },
          { name := "r", op := "call", args := ["@right", "%t"] },
          { op := "ret", args := ["%r"] }]⟩] },
    { name := "right", ret := "i64", params := [⟨"n", "i32"⟩]
      blocks := [
        ⟨"again", [
          { name := "r", op := "call", args := ["@left", "%n"] },
          { op := "ret", args := ["%r"] }]⟩] }]
  tables := [⟨"ends", [["@right", "i32 1"], ["@left"]]⟩]

theorem mutualCalls_ignores_order : ∃ m m', ofSpec mutualCalls = .ok m ∧
    ofSpec { mutualCalls with functions := mutualCalls.functions.reverse } = .ok m' ∧
      m.functions.map Func.name = ["left", "right"] ∧
      m'.functions.map Func.name = ["right", "left"] ∧
      (∀ f ∈ m.functions,
        ∀ f' ∈ m'.functions, f'.name = f.name → f'.print m'.scope = f.print m.scope) ∧
      m'.tables.map (MetadataTable.print m'.scope) =
      m.tables.map (MetadataTable.print m.scope) := by
  have hok : (ofSpec mutualCalls).isOk = true := by decide +kernel
  obtain ⟨haccepted, hsame⟩ := ofSpec_ignores_order mutualCalls mutualCalls.functions.reverse_perm
  obtain ⟨m, hm⟩ := Description.exists_of_isOk hok
  obtain ⟨m', hm'⟩ := Description.exists_of_isOk (haccepted.trans hok)
  obtain ⟨hnames, hnames', hprint, _, htables⟩ := hsame m m' hm hm'
  exact ⟨m, m', hm, hm', hnames, hnames',
    fun f hf f' hf' hname => (hprint f hf f' hf' hname).1, htables⟩

end Module

end KernelIR
