import KernelIR.Geometry.Basic
import KernelIR.Proofs.Consistent

namespace KernelIR

namespace Func

/-- Whether a function consists of one block that returns. -/
def Sealed (f : Func) : Prop := ∃ k i, f.blocks = [k] ∧ k.instrs.getLast? = some i ∧ i.op = .ret

/-- What a function is to its callers. -/
def signature (f : Func) : FuncId × String × Ty × List Param := (f.id, f.name, f.ret, f.params)

variable {f g : Func}

theorem sealed_of_instrs {is : List Instr} {i : Instr} (h : f.blocks.map Block.instrs = [is])
    (hi : is.getLast? = some i) (hop : i.op = .ret) : f.Sealed := by
  obtain ⟨k, hk, rfl⟩ := List.map_eq_singleton_iff.mp h
  exact ⟨k, i, hk, hi, hop⟩

theorem id_of_signature (h : g.signature = f.signature) : g.id = f.id := congrArg Prod.fst h

theorem name_of_signature (h : g.signature = f.signature) : g.name = f.name :=
  congrArg (fun s => s.2.1) h

theorem ty_of_signature (h : g.signature = f.signature) : g.ty = f.ty := by
  rw [signature, signature, Prod.mk.injEq, Prod.mk.injEq, Prod.mk.injEq] at h
  rw [ty, ty, h.2.2.1, h.2.2.2]

end Func

namespace Marker

variable {m m' : Module} {f f' : Func}

theorem op_of_compared? {id : InstrId} {cmp ret : Instr} {c : IntConst}
    (h : compared? id cmp ret = some c) :
    ret.op = .ret := by
  rw [compared?] at h
  split at h
  · split_ifs at h with hret
    rw [Bool.and_eq_true, decide_eq_true_eq, decide_eq_true_eq] at hret
    exact hret.2
  · cases h

theorem sealed_of_ofQuery? {k : Marker} (h : ofQuery? m f = some k) : f.Sealed := by
  rw [ofQuery?] at h
  split at h
  · next query cmp ret hblocks =>
    simp only [bind, Option.bind_eq_some_iff] at h
    obtain ⟨callee, _, role, _, h⟩ := h
    split at h
    · simp only [Option.bind_eq_some_iff] at h
      obtain ⟨axis, _, value, hvalue, _⟩ := h
      exact Func.sealed_of_instrs hblocks rfl (op_of_compared? hvalue)
    · cases h
  · cases h

theorem sealed_of_ofField? {k : Marker} (h : ofField? m f = some k) : f.Sealed := by
  rw [ofField?] at h
  split at h
  · next cast field load cmp ret hblocks =>
    simp only [bind, Option.bind_eq_some_iff] at h
    obtain ⟨role, _, axis, _, h⟩ := h
    split_ifs at h
    simp only [Option.bind_eq_some_iff] at h
    obtain ⟨value, hvalue, _⟩ := h
    exact Func.sealed_of_instrs hblocks rfl (op_of_compared? hvalue)
  · cases h

/-- A query is read the same if the functions are still called the same. -/
theorem ofQuery?_congr (hblocks : f'.blocks = f.blocks)
    (hnames : ∀ id, (m'.func? id).map Func.name = (m.func? id).map Func.name) :
    ofQuery? m' f' = ofQuery? m f := by
  rw [ofQuery?, ofQuery?, hblocks]
  split
  · next query cmp ret _ =>
    cases query.callee? with
    | none => rfl
    | some id =>
      have hname := hnames id
      rw [Option.bind_some, Option.bind_some]
      cases hg : m.func? id with
      | none =>
        rw [hg, Option.map_none, Option.map_eq_none_iff] at hname
        rw [hname]
      | some g =>
        rw [hg, Option.map_some, Option.map_eq_some_iff] at hname
        obtain ⟨g', hg', hname⟩ := hname
        rw [hg']
        simp only [bind, Option.bind_some, hname]
  · rfl

theorem vector?_congr {s s' : Scope} {cast : Instr}
    (h : ∀ v ∈ cast.operands, v.ty s' = v.ty s ∧ nameOf s' v = nameOf s v) :
    vector? s' cast = vector? s cast := by
  rw [vector?, vector?]
  split
  · next v _ hoperands =>
    obtain ⟨hty, hname⟩ := h v (hoperands ▸ List.mem_singleton_self v)
    rw [hty, hname]
  · rfl

/-- A field is read the same if what its operands are called has not changed. -/
theorem ofField?_congr (hblocks : f'.blocks = f.blocks) (hnames : ∀ i ∈ f.instrs, ∀ v ∈ i.operands,
    v.ty m'.scope = v.ty m.scope ∧ nameOf m'.scope v = nameOf m.scope v) :
    ofField? m' f' = ofField? m f := by
  rw [ofField?, ofField?, hblocks]
  split
  · next cast field load cmp ret hinstrs =>
    obtain ⟨k, hk, hcast⟩ := List.map_eq_singleton_iff.mp hinstrs
    rw [vector?_congr (hnames cast (Func.mem_instrs.mpr ⟨k, by simp [hk], by simp [hcast]⟩))]
  · rfl

end Marker

namespace Module

variable {m m' m₁ m₂ : Module} {f f' : Func}

/-- Whether no function is still to hand out an identity. -/
def Handed (m : Module) (d : InstrId) : Prop :=
  ∀ f ∈ m.known, f.id = d.home → d.serial < f.nextSerial

theorem Consistent.handed (hm : m.Consistent) (hf : f ∈ m.known) {i : Instr} (hi : i ∈ f.held)
    {d : InstrId} (hd : d ∈ i.reads) : m.Handed d :=
  fun g hg hid => hm.serials g hg f hf i hi d (List.mem_cons_of_mem _ hd) hid.symm

/-- Whether a module states the geometry of another one: what is called what has not changed, nor
has a function that returns in its only block, and no other function has become such a one. -/
structure Settled (m m' : Module) : Prop where
  tables : m'.tables = m.tables
  functions : m'.functions.map Func.signature = m.functions.map Func.signature
  dropped : m'.dropped.map Func.signature = m.dropped.map Func.signature
  bodies :
    ∀ f ∈ m.known, ∀ f' ∈ m'.known, f'.id = f.id → f.Sealed ∨ f'.Sealed → f'.blocks = f.blocks
  titles : ∀ d, m.Handed d → m'.Handed d ∧ m'.scope.instr d = m.scope.instr d

namespace Settled

theorem refl (hm : (m.known.map Func.id).Nodup) : m.Settled m :=
  ⟨rfl, rfl, rfl, fun _ hf _ hf' hid _ => by rw [List.inj_on_of_nodup_map hm hf' hf hid],
    fun _ hd => ⟨hd, rfl⟩⟩

theorem known (h : m.Settled m') : m'.known.map Func.signature = m.known.map Func.signature := by
  rw [Module.known, Module.known, List.map_append, List.map_append, h.functions, h.dropped]

theorem trans (h : m.Settled m₁) (h' : m₁.Settled m₂) : m.Settled m₂ := by
  refine ⟨h'.tables.trans h.tables, h'.functions.trans h.functions, h'.dropped.trans h.dropped,
    fun f hf f₂ hf₂ hid hsealed => ?_, fun d hd => ?_⟩
  · have hmem : f.signature ∈ m₁.known.map Func.signature := h.known ▸ List.mem_map_of_mem hf
    obtain ⟨f₁, hf₁, hsig⟩ := List.mem_map.mp hmem
    have hid₁ := Func.id_of_signature hsig
    have hid₂ := hid.trans hid₁.symm
    rcases hsealed with hs | hs
    · have hblocks := h.bodies f hf f₁ hf₁ hid₁ (Or.inl hs)
      have hs₁ : f₁.Sealed := by rwa [Func.Sealed, hblocks]
      rw [h'.bodies f₁ hf₁ f₂ hf₂ hid₂ (Or.inl hs₁), hblocks]
    · have hblocks := h'.bodies f₁ hf₁ f₂ hf₂ hid₂ (Or.inr hs)
      have hs₁ : f₁.Sealed := by rwa [Func.Sealed, ← hblocks]
      rw [hblocks, h.bodies f hf f₁ hf₁ hid₁ (Or.inr hs₁)]
  · obtain ⟨hd₁, htitle⟩ := h.titles d hd
    exact ⟨(h'.titles d hd₁).1, (h'.titles d hd₁).2.trans htitle⟩

theorem func? (h : m.Settled m') (id : FuncId) :
    (m'.func? id).map Func.signature = (m.func? id).map Func.signature := by
  have hfind : ∀ m : Module, (m.func? id).map Func.signature =
      (m.known.map Func.signature).find? fun s => decide (s.1 = id) := fun m => by
    rw [List.find?_map]
    rfl
  rw [hfind, hfind, h.known]

theorem scope_func (h : m.Settled m') (id : FuncId) : m'.scope.func id = m.scope.func id := by
  have hsig := h.func? id
  simp only [scope]
  cases hf : m.func? id with
  | none =>
    rw [hf, Option.map_none, Option.map_eq_none_iff] at hsig
    rw [hsig]
  | some f =>
    rw [hf, Option.map_some, Option.map_eq_some_iff] at hsig
    obtain ⟨f', hf', hsig⟩ := hsig
    rw [hf']
    simp only [Func.name_of_signature hsig, Func.ty_of_signature hsig]

/-- An operand is called what it was called, and has its type. -/
theorem value (h : m.Settled m') {v : Value} (hv : ∀ d, v.instr? = some d → m.Handed d) :
    v.ty m'.scope = v.ty m.scope ∧ Marker.nameOf m'.scope v = Marker.nameOf m.scope v := by
  cases v with
  | instr d =>
    have htitle := (h.titles d (hv d rfl)).2
    exact ⟨congrArg Prod.snd htitle, congrArg Prod.fst htitle⟩
  | func id => exact ⟨congrArg Prod.snd (h.scope_func id), rfl⟩
  | _ => exact ⟨rfl, rfl⟩

section

variable (h : m.Settled m') (hm : m.Consistent) (hf : f ∈ m.known) (hf' : f' ∈ m'.known)
  (hsig : f'.signature = f.signature)

include h hf hf' hsig

theorem ofQuery?_eq : Marker.ofQuery? m' f' = Marker.ofQuery? m f := by
  by_cases hsealed : f.Sealed ∨ f'.Sealed
  · refine Marker.ofQuery?_congr (h.bodies f hf f' hf' (Func.id_of_signature hsig) hsealed)
      fun id => ?_
    have hname :=
      congrArg (Option.map fun s : FuncId × String × Ty × List Param => s.2.1) (h.func? id)
    rwa [Option.map_map, Option.map_map] at hname
  · rw [not_or] at hsealed
    rw [Option.eq_none_iff_forall_ne_some.mpr fun k hk => hsealed.1 (Marker.sealed_of_ofQuery? hk)]
    exact Option.eq_none_iff_forall_ne_some.mpr fun k hk => hsealed.2 (Marker.sealed_of_ofQuery? hk)

include hm

theorem ofField?_eq : Marker.ofField? m' f' = Marker.ofField? m f := by
  by_cases hsealed : f.Sealed ∨ f'.Sealed
  · refine Marker.ofField?_congr (h.bodies f hf f' hf' (Func.id_of_signature hsig) hsealed)
      fun i hi v hv => ?_
    exact h.value fun d hd =>
      hm.handed hf (List.mem_append_left _ hi) (List.mem_filterMap.mpr ⟨v, hv, hd⟩)
  · rw [not_or] at hsealed
    rw [Option.eq_none_iff_forall_ne_some.mpr fun k hk => hsealed.1 (Marker.sealed_of_ofField? hk)]
    exact Option.eq_none_iff_forall_ne_some.mpr fun k hk => hsealed.2 (Marker.sealed_of_ofField? hk)

end

/-- The same functions are taken for markers, and the same markers are found in them. -/
theorem markers_eq (h : m.Settled m') {F F' : Func → Option Marker}
    (hF : ∀ f ∈ m.known, ∀ f' ∈ m'.known, f'.signature = f.signature → F' f' = F f) :
    m'.markerFuncs.filterMap F' = m.markerFuncs.filterMap F := by
  have hread :
      ∀ xs ys : List Func, ys.map Func.signature = xs.map Func.signature → (∀ x ∈ xs, x ∈ m.known) →
      (∀ y ∈ ys, y ∈ m'.known) →
      (ys.filter Func.isMarker).filterMap F' = (xs.filter Func.isMarker).filterMap F := by
    intro xs
    induction xs with
    | nil =>
      intro ys hys _ _
      rw [List.map_nil, List.map_eq_nil_iff] at hys
      rw [hys]
      rfl
    | cons x xs ih =>
      intro ys hys hxs hknown
      obtain ⟨y, ys, rfl, hsig, hys⟩ := List.map_eq_cons_iff.mp hys
      have hrest := ih ys hys (fun x hx => hxs x (List.mem_cons_of_mem _ hx)) fun y hy =>
        hknown y (List.mem_cons_of_mem _ hy)
      have hmarker : y.isMarker = x.isMarker := by
        rw [Func.isMarker, Func.isMarker, Func.name_of_signature hsig]
      have hsame := hF x (hxs x List.mem_cons_self) y (hknown y List.mem_cons_self) hsig
      rw [List.filter_cons, List.filter_cons, hmarker]
      split
      · rw [List.filterMap_cons, List.filterMap_cons, hsame, hrest]
      · exact hrest
  exact hread m.functions m'.functions h.functions (fun _ => List.mem_append_left _) fun _ =>
    List.mem_append_left _

theorem geometry_eq (h : m.Settled m') (hm : m.Consistent) (d : Dialect) :
    m'.geometry d = m.geometry d := by
  cases d with
  | cuda =>
    simp only [geometry, markerOf]
    rw [h.markers_eq fun f hf f' hf' => h.ofField?_eq hm hf hf']
  | opencl =>
    simp only [geometry, markerOf]
    rw [h.markers_eq fun f hf f' hf' => h.ofQuery?_eq hf hf']
  | c => rfl
  | unassigned code => rfl

/-- The same functions are kernels. -/
theorem entryPoints_eq (h : m.Settled m') (d : Dialect) :
    (m'.entryPoints d).map Func.signature = (m.entryPoints d).map Func.signature := by
  have hkernel : ∀ id, m'.isEntryPoint id d = m.isEntryPoint id d := fun id => by
    cases d <;> simp only [isEntryPoint, nodesOf, table?, h.tables]
  have hfilter : ∀ m : Module, (m.entryPoints d).map Func.signature =
      (m.functions.map Func.signature).filter fun s => m.isEntryPoint s.1 d := fun m => by
    rw [List.filter_map]
    rfl
  rw [hfilter, hfilter, h.functions]
  simp only [hkernel]

end Settled

end Module

end KernelIR
