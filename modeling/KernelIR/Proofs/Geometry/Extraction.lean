import KernelIR.Proofs.Geometry.Independence

namespace KernelIR

section Last

variable {α β : Type} {F : α → Option β} {P : α → β → Prop} {l : List α} {y : β}

/-- Whether the last member of a list that has a value has this one. -/
def IsLast (P : α → β → Prop) (l : List α) (y : β) : Prop :=
  ∃ before x after, l = before ++ x :: after ∧ P x y ∧ ∀ z ∈ after, ∀ y', ¬P z y'

theorem getLast?_filterMap_iff (hF : ∀ x y, F x = some y ↔ P x y) :
    (l.filterMap F).getLast? = some y ↔ IsLast P l y := by
  have hnone : ∀ x, F x = none ↔ ∀ y, ¬P x y := fun x => by
    rw [Option.eq_none_iff_forall_ne_some]
    exact forall_congr' fun y => not_congr (hF x y)
  rw [List.getLast?_filterMap, List.findSome?_eq_some_iff]
  constructor
  · rintro ⟨after, x, before, hl, hx, hafter⟩
    refine ⟨before.reverse, x, after.reverse, ?_, (hF x y).mp hx, fun z hz => ?_⟩
    · rw [← List.reverse_reverse l, hl]
      simp
    · exact (hnone z).mp (hafter z (List.mem_reverse.mp hz))
  · rintro ⟨before, x, after, rfl, hx, hafter⟩
    refine ⟨after.reverse, x, before.reverse, by simp, (hF x y).mpr hx, fun z hz => ?_⟩
    exact (hnone z).mpr (hafter z (List.mem_reverse.mp hz))

theorem getLast?_filterMap_eq_none_iff (hF : ∀ x y, F x = some y ↔ P x y) :
    (l.filterMap F).getLast? = none ↔ ∀ x ∈ l, ∀ y, ¬P x y := by
  rw [List.getLast?_eq_none_iff, List.filterMap_eq_nil_iff]
  refine forall₂_congr fun x _ => ?_
  rw [Option.eq_none_iff_forall_ne_some]
  exact forall_congr' fun y => not_congr (hF x y)

/-- Idle members come, go and change places. -/
inductive Stirred (idle : α → Prop) : List α → List α → Prop
  | refl (xs : List α) : Stirred idle xs xs
  | insert {x : α} (xs ys : List α) (hx : idle x) : Stirred idle (xs ++ ys) (xs ++ x :: ys)
  | delete {x : α} (xs ys : List α) (hx : idle x) : Stirred idle (xs ++ x :: ys) (xs ++ ys)
  | swap {x x' : α} (xs ys : List α) (h : idle x ∨ idle x') :
    Stirred idle (xs ++ x :: x' :: ys) (xs ++ x' :: x :: ys)
  | trans {xs ys zs : List α} (h : Stirred idle xs ys) (h' : Stirred idle ys zs) :
    Stirred idle xs zs

theorem Stirred.filterMap_eq {idle : α → Prop} {xs ys : List α} (h : Stirred idle xs ys)
    (hidle : ∀ x, idle x → F x = none) : ys.filterMap F = xs.filterMap F := by
  induction h with
  | refl => rfl
  | insert xs ys hx => simp [List.filterMap_append, List.filterMap_cons_none (hidle _ hx)]
  | delete xs ys hx => simp [List.filterMap_append, List.filterMap_cons_none (hidle _ hx)]
  | swap xs ys h =>
    rcases h with hx | hx
    · simp [List.filterMap_append, List.filterMap_cons, hidle _ hx]
    · simp [List.filterMap_append, List.filterMap_cons, hidle _ hx]
  | trans _ _ ih ih' => exact ih'.trans ih

end Last

/-- What a marker says about a size. -/
def Marker.sizeAt? (r : Role) (a : Axis) (k : Marker) : Option IntConst :=
  if r = k.role ∧ a = k.axis then some k.value else none

namespace Geometry

variable {g g' : Geometry} {r : Role} {a : Axis} {k l : Marker}

theorem size_foldl (ks : List Marker) (g : Geometry) :
    (ks.foldl record g).size r a =
    (ks.filterMap (Marker.sizeAt? r a)).getLast?.or (g.size r a) := by
  induction ks generalizing g with
  | nil => rfl
  | cons k ks ih =>
    rw [List.foldl_cons, ih]
    by_cases h : r = k.role ∧ a = k.axis
    · have hat : Marker.sizeAt? r a k = some k.value := if_pos h
      have hsize : (record g k).size r a = some k.value := if_pos h
      rw [List.filterMap_cons_some hat, List.getLast?_cons, hsize]
      cases (ks.filterMap (Marker.sizeAt? r a)).getLast? with
      | none => rfl
      | some c => rfl
    · have hat : Marker.sizeAt? r a k = none := if_neg h
      have hsize : (record g k).size r a = g.size r a := if_neg h
      rw [List.filterMap_cons_none hat, hsize]

theorem bits_foldl (ks : List Marker) (g : Geometry) :
    (ks.foldl record g).bits = (ks.getLast?.map fun k => k.value.bits).getD g.bits := by
  induction ks generalizing g with
  | nil => rfl
  | cons k ks ih =>
    rw [List.foldl_cons, ih, List.getLast?_cons]
    cases ks.getLast? with
    | none => rfl
    | some k' => rfl

theorem size_ofMarkers (ks : List Marker) :
    (ofMarkers ks).size r a = (ks.filterMap (Marker.sizeAt? r a)).getLast? := by
  rw [ofMarkers, size_foldl, Option.or_none]

/-- Markers of different sizes may change places. -/
theorem size_swap (h : k.role ≠ l.role ∨ k.axis ≠ l.axis) (xs ys : List Marker) :
    (ofMarkers (xs ++ l :: k :: ys)).size = (ofMarkers (xs ++ k :: l :: ys)).size := by
  funext r a
  rw [size_ofMarkers, size_ofMarkers, List.filterMap_append, List.filterMap_append]
  by_cases hk : r = k.role ∧ a = k.axis
  · have hl : ¬(r = l.role ∧ a = l.axis) := fun hl =>
      h.elim (fun hne => hne (hk.1.symm.trans hl.1)) fun hne => hne (hk.2.symm.trans hl.2)
    have hnone : Marker.sizeAt? r a l = none := if_neg hl
    simp only [List.filterMap_cons, hnone]
  · have hnone : Marker.sizeAt? r a k = none := if_neg hk
    simp only [List.filterMap_cons, hnone]

/-- Whether a size is known and at least 1. -/
def Sound (g : Geometry) (d : Role × Axis) : Prop := ∃ c, g.size d.1 d.2 = some c ∧ 1 ≤ c.signed

theorem isPositive_iff {d : Role × Axis} : isPositive (g.size d.1 d.2) = true ↔ g.Sound d := by
  rw [isPositive, Option.any_eq_true]
  simp only [decide_eq_true_eq]
  exact Iff.rfl

theorem mem_dimensions (d : Role × Axis) : d ∈ dimensions := by
  obtain ⟨r, a⟩ := d
  cases r with
  | item => revert a; decide
  | group => revert a; decide

theorem fault?_eq_none_iff : g.fault? = none ↔ ∀ d, g.Sound d := by
  rw [fault?, Option.map_eq_none_iff, List.find?_eq_none]
  simp only [Bool.not_eq_true', Bool.not_eq_false, isPositive_iff]
  exact ⟨fun h d => h d (mem_dimensions d), fun h d _ => h d⟩

theorem fault?_eq_some_iff {x : GeometryFault} : g.fault? = some x ↔
    ∃ before d after, dimensions = before ++ d :: after ∧ (∀ e ∈ before, g.Sound e) ∧ ¬g.Sound d ∧
      x = .dimension d.1 d.2 := by
  rw [fault?, Option.map_eq_some_iff]
  simp only [List.find?_eq_some_iff_append, Bool.not_not, isPositive_iff, Bool.not_eq_true',
    ← Bool.not_eq_true]
  constructor
  · rintro ⟨d, ⟨hd, before, after, hsplit, hbefore⟩, rfl⟩
    exact ⟨before, d, after, hsplit, hbefore, hd, rfl⟩
  · rintro ⟨before, d, after, hsplit, hbefore, hd, rfl⟩
    exact ⟨d, ⟨hd, before, after, hsplit, hbefore⟩, rfl⟩

theorem fault?_congr (h : g'.size = g.size) : g'.fault? = g.fault? := by rw [fault?, fault?, h]

end Geometry

/-- The function that is asked for a size. -/
def Role.query : Role → String
  | .item => "get_local_size"
  | .group => "get_num_groups"

/-- The vector that holds a size. -/
def Role.vector : Role → String
  | .item => "blockDim"
  | .group => "gridDim"

namespace Marker

/-- The value of an instruction is compared with a constant, and then the function returns. -/
structure Compares (id : InstrId) (cmp ret : Instr) (c : IntConst) : Prop where
  op : cmp.op = .icmp
  pred : cmp.pred = .eq
  operands : cmp.operands = [.instr id, .int c]
  ret : ret.op = .ret

/-- How a marker is written: as the only block, and with nothing else in it. -/
inductive Written (m : Module) (f : Func) : Dialect → Marker → Prop
  | query {query cmp ret : Instr} {id : FuncId} {callee : Func} {index : IntConst} {k : Marker}
    (hbody : f.blocks.map Block.instrs = [[query, cmp, ret]]) (hcall : query.op = .call)
    (hoperands : query.operands = [.func id, .int index]) (hcallee : m.func? id = some callee)
    (hname : callee.name = k.role.query) (haxis : index.unsigned = k.axis.val)
    (hcompares : Compares query.id cmp ret k.value) : Written m f .opencl k
  | field {cast field load cmp ret : Instr} {v : Value} {zero index : IntConst} {k : Marker}
    (hbody : f.blocks.map Block.instrs = [[cast, field, load, cmp, ret]])
      (hcast : cast.op = .cast .addrspacecast)
    (hvector : cast.operands = [v]) (hty : (v.ty m.scope).isStructPointer Ty.sizeVector = true)
    (hname : nameOf m.scope v = k.role.vector) (hfield : field.op = .elementPtr)
    (hindices : field.operands = [.instr cast.id, .int zero, .int index])
      (hzero : zero.unsigned = 0)
    (haxis : index.unsigned = k.axis.val) (hload : load.op = .load)
      (hloaded : load.operands = [.instr field.id])
    (hcompares : Compares load.id cmp ret k.value) : Written m f .cuda k

variable {m : Module} {f : Func} {k : Marker} {r : Role} {a : Axis} {c : IntConst}

theorem queried?_iff {name : String} : queried? name = some r ↔ name = r.query := by
  rw [queried?]
  cases r with
  | item => split_ifs <;> simp_all [Role.query]
  | group => split_ifs <;> simp_all [Role.query]

theorem held?_iff {name : String} : held? name = some r ↔ name = r.vector := by
  rw [held?]
  cases r with
  | item => split_ifs <;> simp_all [Role.vector]
  | group => split_ifs <;> simp_all [Role.vector]

theorem axis?_iff {v : Value} : axis? v = some a ↔
    ∃ index : IntConst, v = .int index ∧ index.unsigned = a.val := by
  constructor
  · intro h
    cases v with
    | int index =>
      simp only [axis?] at h
      split_ifs at h
      exact ⟨index, rfl, congrArg Fin.val (Option.some.inj h)⟩
    | _ => cases h
  · rintro ⟨index, rfl, hindex⟩
    have hlt : index.unsigned < 3 := hindex ▸ a.isLt
    simp only [axis?, hlt, ↓reduceDIte, Option.some.injEq]
    exact Fin.ext hindex

theorem compared?_iff {id : InstrId} {cmp ret : Instr} : compared? id cmp ret = some c ↔
    Compares id cmp ret c := by
  constructor
  · intro h
    rw [compared?] at h
    split at h
    · next hop hpred hoperands =>
      split_ifs at h with hret
      rw [Bool.and_eq_true, decide_eq_true_eq, decide_eq_true_eq] at hret
      rw [Option.some.injEq] at h
      subst h
      exact ⟨hop, hpred, hret.1 ▸ hoperands, hret.2⟩
    · cases h
  · rintro ⟨hop, hpred, hoperands, hret⟩
    simp [compared?, hop, hpred, hoperands, hret]

theorem vector?_iff {scope : Scope} {cast : Instr} : vector? scope cast = some r ↔
    cast.op = .cast .addrspacecast ∧
    ∃ v, cast.operands = [v] ∧ (v.ty scope).isStructPointer Ty.sizeVector = true ∧
      nameOf scope v = r.vector := by
  constructor
  · intro h
    rw [vector?] at h
    split at h
    · next v hop hoperands =>
      split_ifs at h with hty
      exact ⟨hop, v, hoperands, hty, held?_iff.mp h⟩
    · cases h
  · rintro ⟨hop, v, hoperands, hty, hname⟩
    simp only [vector?, hop, hoperands, hty, if_true]
    exact held?_iff.mpr hname

theorem fieldOf?_iff {id : InstrId} {field : Instr} : fieldOf? id field = some a ↔
    field.op = .elementPtr ∧ ∃ zero index :
      IntConst, field.operands = [.instr id, .int zero, .int index] ∧ zero.unsigned = 0 ∧
      index.unsigned = a.val := by
  constructor
  · intro h
    rw [fieldOf?] at h
    split at h
    · next x zero v hop hoperands =>
      split_ifs at h with hzero
      rw [Bool.and_eq_true, decide_eq_true_eq, decide_eq_true_eq] at hzero
      obtain ⟨index, rfl, hindex⟩ := axis?_iff.mp h
      exact ⟨hop, zero, index, hzero.1 ▸ hoperands, hzero.2, hindex⟩
    · cases h
  · rintro ⟨hop, zero, index, hoperands, hzero, hindex⟩
    simp only [fieldOf?, hop, hoperands, hzero, decide_true, Bool.and_self, if_true]
    exact axis?_iff.mpr ⟨index, rfl, hindex⟩

theorem loadsFrom_iff {id : InstrId} {load : Instr} :
    loadsFrom id load = true ↔ load.op = .load ∧ load.operands = [.instr id] := by
  rw [loadsFrom]
  split
  · next hop hoperands => simp [hop, hoperands]
  · next hne =>
    refine ⟨fun h => Bool.noConfusion h, fun h => ?_⟩
    exact absurd h.2 (hne id h.1)

theorem sizeAt?_iff : sizeAt? r a k = some c ↔ k = ⟨r, a, c⟩ := by
  rw [sizeAt?]
  split_ifs with h
  · obtain ⟨rfl, rfl⟩ := h
    rw [Option.some.injEq]
    exact ⟨fun hc => hc ▸ rfl, fun hk => congrArg value hk⟩
  · refine iff_of_false not_false fun hk => ?_
    subst hk
    exact h ⟨rfl, rfl⟩

theorem callee?_iff {i : Instr} {id : FuncId} :
    i.callee? = some id ↔ i.op = .call ∧ ∃ args, i.operands = .func id :: args := by
  rw [Operation.callee?]
  split
  · next x args hop hoperands => simp [hop, hoperands]
  · next hne =>
    refine iff_of_false (Option.some_ne_none id).symm fun h => ?_
    obtain ⟨hop, args, hoperands⟩ := h
    exact hne id args hop hoperands

/-- Reading finds exactly what is written. -/
theorem ofQuery?_iff : ofQuery? m f = some k ↔ Written m f .opencl k := by
  constructor
  · intro h
    rw [ofQuery?] at h
    split at h
    · next query cmp ret hbody =>
      simp only [bind, Option.bind_eq_some_iff] at h
      obtain ⟨callee, ⟨id, hid, hcallee⟩, role, hrole, h⟩ := h
      split at h
      · next arg hargs =>
        simp only [Option.bind_eq_some_iff] at h
        obtain ⟨axis, haxis, value, hvalue, hk⟩ := h
        obtain ⟨hcall, args, hoperands⟩ := callee?_iff.mp hid
        obtain ⟨index, rfl, hindex⟩ := axis?_iff.mp haxis
        rw [Operation.args, hcall] at hargs
        simp only [hoperands, List.drop_succ_cons, List.drop_zero] at hargs
        cases hk
        exact .query hbody hcall (hargs ▸ hoperands) hcallee (queried?_iff.mp hrole) hindex
          (compared?_iff.mp hvalue)
      · cases h
    · cases h
  · intro h
    cases h with
    | query hbody hcall hoperands hcallee hname haxis hcompares =>
      simp only [ofQuery?, hbody, callee?_iff.mpr ⟨hcall, _, hoperands⟩, Option.bind_some, hcallee,
        queried?_iff.mpr hname, Operation.args, hcall, hoperands, List.drop_succ_cons,
        List.drop_zero, bind, axis?_iff.mpr ⟨_, rfl, haxis⟩, compared?_iff.mpr hcompares]
      rfl

theorem ofField?_iff : ofField? m f = some k ↔ Written m f .cuda k := by
  constructor
  · intro h
    rw [ofField?] at h
    split at h
    · next cast field load cmp ret hbody =>
      simp only [bind, Option.bind_eq_some_iff] at h
      obtain ⟨role, hrole, axis, haxis, h⟩ := h
      split_ifs at h with hload
      simp only [Option.bind_eq_some_iff] at h
      obtain ⟨value, hvalue, hk⟩ := h
      obtain ⟨hcast, v, hvector, hty, hname⟩ := vector?_iff.mp hrole
      obtain ⟨hfield, zero, index, hindices, hzero, hindex⟩ := fieldOf?_iff.mp haxis
      obtain ⟨hload, hloaded⟩ := loadsFrom_iff.mp hload
      cases hk
      exact .field hbody hcast hvector hty hname hfield hindices hzero hindex hload hloaded
        (compared?_iff.mp hvalue)
    · cases h
  · intro h
    cases h with
    | field hbody hcast hvector hty hname hfield hindices hzero haxis hload hloaded hcompares =>
      simp only [ofField?, hbody, vector?_iff.mpr ⟨hcast, _, hvector, hty, hname⟩, bind,
        Option.bind_some, fieldOf?_iff.mpr ⟨hfield, _, _, hindices, hzero, haxis⟩,
        loadsFrom_iff.mpr ⟨hload, hloaded⟩, if_true, compared?_iff.mpr hcompares]
      rfl

/-- Whether an operand means the same in two modules. -/
structure Alike (m m' : Module) (v : Value) : Prop where
  ty : v.ty m'.scope = v.ty m.scope
  name : nameOf m'.scope v = nameOf m.scope v
  func : ∀ id, v = .func id → m'.func? id = m.func? id

/-- What is written in a function depends on the module only through the operands. -/
theorem Written.of_alike {m' : Module} {d : Dialect} (h : Written m f d k)
    (halike : ∀ i ∈ f.instrs, ∀ v ∈ i.operands, Alike m m' v) : Written m' f d k := by
  have hmem : ∀ {is : List Instr} {i : Instr}, f.blocks.map Block.instrs = [is] → i ∈ is →
      i ∈ f.instrs := by
    intro is i hbody hi
    obtain ⟨b, hb, rfl⟩ := List.map_eq_singleton_iff.mp hbody
    exact Func.mem_instrs.mpr ⟨b, by simp [hb], hi⟩
  cases h with
  | query hbody hcall hoperands hcallee hname haxis hcompares =>
    have hfunc :=
      (halike _ (hmem hbody List.mem_cons_self) _ (hoperands ▸ List.mem_cons_self)).func _ rfl
    exact .query hbody hcall hoperands (hfunc.trans hcallee) hname haxis hcompares
  | field hbody hcast hvector hty hname hfield hindices hzero haxis hload hloaded hcompares =>
    have hv := halike _ (hmem hbody List.mem_cons_self) _ (hvector ▸ List.mem_cons_self)
    exact .field hbody hcast hvector (hv.ty ▸ hty)
      (hv.name.trans hname) hfield hindices hzero haxis hload hloaded
      hcompares

end Marker

namespace Module

open Marker (Written Alike)

variable {m m' pool : Module} {d : Dialect} {f : Func} {k : Marker}

/-- A function that is known for a marker by its name, and is written as one. -/
structure Announces (m : Module) (d : Dialect) (f : Func) (k : Marker) : Prop where
  named : "__axiom".toList <+: f.name.toList
  written : Written m f d k

/-- What a function says about the launch geometry. -/
def announced? (m : Module) (d : Dialect) (f : Func) : Option Marker :=
  if f.isMarker then (m.markerOf d).toOption.bind fun marker => marker f else none

theorem announced?_iff : m.announced? d f = some k ↔ m.Announces d f k := by
  have hwritten : ((m.markerOf d).toOption.bind fun marker => marker f) = some k ↔
      Written m f d k := by
    cases d with
    | cuda => exact Marker.ofField?_iff
    | opencl => exact Marker.ofQuery?_iff
    | c => exact iff_of_false (Option.some_ne_none k).symm (by rintro ⟨⟩)
    | unassigned code => exact iff_of_false (Option.some_ne_none k).symm (by rintro ⟨⟩)
  rw [announced?]
  split_ifs with hmarker
  · rw [hwritten]
    exact ⟨fun h => ⟨List.isPrefixOf_iff_prefix.mp hmarker, h⟩, Announces.written⟩
  · exact iff_of_false not_false fun h => hmarker (List.isPrefixOf_iff_prefix.mpr h.named)

theorem announced?_eq_none_iff : m.announced? d f = none ↔ ∀ k, ¬m.Announces d f k := by
  rw [Option.eq_none_iff_forall_ne_some]
  exact forall_congr' fun k => not_congr announced?_iff

theorem geometry_eq_ofMarkers (hd : d = .cuda ∨ d = .opencl) : m.geometry d =
    (Geometry.ofMarkers (m.functions.filterMap (m.announced? d)),
      (Geometry.ofMarkers (m.functions.filterMap (m.announced? d))).fault?) := by
  have hmarkers : ∀ F, m.markerOf d = .ok F →
      m.markerFuncs.filterMap F = m.functions.filterMap (m.announced? d) := by
    intro F hF
    rw [markerFuncs, List.filterMap_filter]
    refine List.filterMap_congr fun f _ => ?_
    rw [announced?, hF]
    rfl
  rcases hd with rfl | rfl
  · rw [← hmarkers _ rfl]
    rfl
  · rw [← hmarkers _ rfl]
    rfl

/-- Whether the functions of a module are among those of another one, and refer to nothing that is
missing. -/
structure Within (m pool : Module) : Prop where
  known : ∀ f ∈ m.known, f ∈ pool.known
  resolved : ∀ f ∈ m.functions, ∀ i ∈ f.instrs, ∀ v ∈ i.operands, v.Resolved m

theorem Intact.within (h : m.Intact) (hknown : m'.known.Perm m.known) : m'.Within m where
  known _ hf := hknown.mem_iff.mp hf
  resolved f hf i hi v hv := by
    have hf' : f ∈ m.known := hknown.mem_iff.mp (List.mem_append_left _ hf)
    exact (supplies_of_perm h.consistent hknown).value
      ((h.resolved f hf' i (List.mem_append_left _ hi)).operands v hv)

namespace Within

variable (h : m.Within pool) (hpool : pool.Consistent)

include h hpool

theorem func?_eq {id : FuncId} (hid : (m.func? id).isSome) : pool.func? id = m.func? id := by
  obtain ⟨g, hg⟩ := Option.isSome_iff_exists.mp hid
  have hkey := List.find?_some (p := fun f : Func => decide (f.id = id)) hg
  rw [hg, hpool.func?_iff]
  exact ⟨h.known g (List.mem_of_find?_eq_some hg), of_decide_eq_true hkey⟩

theorem instr?_eq {x : InstrId} (hx : (m.instr? x).isSome) : pool.instr? x = m.instr? x := by
  obtain ⟨i, hi⟩ := Option.isSome_iff_exists.mp hx
  obtain ⟨g, hg, hgi⟩ := List.exists_of_findSome?_eq_some hi
  have hkey := List.find?_some (p := fun i : Instr => decide (i.id = x)) hgi
  rw [hi, hpool.instr?_iff]
  exact ⟨g, h.known g hg, List.mem_of_find?_eq_some hgi, of_decide_eq_true hkey⟩

theorem alike {v : Value} (hv : v.Resolved m) : Alike pool m v := by
  cases v with
  | instr x =>
    have hx := h.instr?_eq hpool hv
    have hscope : m.scope.instr x = pool.scope.instr x := by simp only [scope, hx]
    exact ⟨congrArg Prod.snd hscope, congrArg Prod.fst hscope, by rintro _ ⟨⟩⟩
  | func id =>
    have hid := h.func?_eq hpool hv
    have hscope : m.scope.func id = pool.scope.func id := by simp only [scope, hid]
    refine ⟨congrArg Prod.snd hscope, rfl, fun id' hid' => ?_⟩
    cases hid'
    exact hid.symm
  | _ => exact ⟨rfl, rfl, by rintro _ ⟨⟩⟩

theorem announces_iff (hf : f ∈ m.functions) : pool.Announces d f k ↔ m.Announces d f k := by
  have halike : ∀ i ∈ f.instrs, ∀ v ∈ i.operands, Alike pool m v := fun i hi v hv =>
    h.alike hpool (h.resolved f hf i hi v hv)
  refine ⟨fun ha => ⟨ha.named, ha.written.of_alike halike⟩,
    fun ha => ⟨ha.named, ha.written.of_alike ?_⟩⟩
  intro i hi v hv
  have hsame := halike i hi v hv
  exact ⟨hsame.ty.symm, hsame.name.symm, fun id hid => (hsame.func id hid).symm⟩

theorem filterMap_announced? :
    m.functions.filterMap (m.announced? d) = m.functions.filterMap (pool.announced? d) := by
  refine List.filterMap_congr fun f hf => Option.ext fun k => ?_
  rw [announced?_iff, announced?_iff, h.announces_iff hpool hf]

end Within

/-- Every size is what the last marker of its role and axis says, and the width is that of the last
marker at all. There is no fault if and only if all six sizes are known and at least 1; otherwise
the fault is the first size that is not. Hence functions that are no markers do not matter, whether
they come, go or change places, and two markers of different sizes that stand next to each other can
change places without a change of the sizes or the fault. -/
theorem geometry_of_last_markers (m : Module) {d : Dialect} (hd : d = .cuda ∨ d = .opencl) :
    (∀ r a, (∀ c, (m.geometry d).1.size r a = some c ↔
        IsLast (fun f c => m.Announces d f ⟨r, a, c⟩) m.functions c) ∧
      ((m.geometry d).1.size r a = none ↔ ∀ f ∈ m.functions, ∀ c, ¬m.Announces d f ⟨r, a, c⟩)) ∧
    (∀ k, IsLast (m.Announces d) m.functions k → (m.geometry d).1.bits = k.value.bits) ∧
    ((∀ f ∈ m.functions, ∀ k, ¬m.Announces d f k) → (m.geometry d).1.bits = 0) ∧
    ((m.geometry d).2 = none ↔ ∀ r a, ∃ c, (m.geometry d).1.size r a = some c ∧ 1 ≤ c.signed) ∧
    (∀ x, (m.geometry d).2 = some x ↔ ∃ before s after,
      [(.item, 0), (.group, 0), (.item, 1), (.group, 1), (.item, 2), (.group, 2)] =
        before ++ s :: after ∧ (∀ e ∈ before, (m.geometry d).1.Sound e) ∧
        ¬(m.geometry d).1.Sound s ∧ x = .dimension s.1 s.2) ∧
    ∀ pool m' : Module, pool.Consistent → m.Within pool → m'.Within pool →
      (Stirred (fun f => ∀ k, ¬pool.Announces d f k) m.functions m'.functions →
        m'.geometry d = m.geometry d) ∧
      ∀ xs ys f g k l, m.functions = xs ++ f :: g :: ys → m'.functions = xs ++ g :: f :: ys →
        m.Announces d f k → m.Announces d g l → (k.role ≠ l.role ∨ k.axis ≠ l.axis) →
          (m'.geometry d).1.size = (m.geometry d).1.size ∧
          (m'.geometry d).2 = (m.geometry d).2 := by
  have hsizes : ∀ r a f c, (m.announced? d f).bind (Marker.sizeAt? r a) = some c ↔
      m.Announces d f ⟨r, a, c⟩ := by
    intro r a f c
    simp only [Option.bind_eq_some_iff, Marker.sizeAt?_iff, exists_eq_right, announced?_iff]
  rw [geometry_eq_ofMarkers hd]
  refine ⟨fun r a => ?_, fun k hk => ?_, fun hnone => ?_, ?_,
    fun x => Geometry.fault?_eq_some_iff, ?_⟩
  · rw [Geometry.size_ofMarkers, List.filterMap_filterMap]
    exact ⟨fun c => getLast?_filterMap_iff (hsizes r a),
      getLast?_filterMap_eq_none_iff (hsizes r a)⟩
  · have hlast := (getLast?_filterMap_iff fun f k => announced?_iff).mpr hk
    rw [Geometry.ofMarkers, Geometry.bits_foldl, hlast]
    rfl
  · have hlast := (getLast?_filterMap_eq_none_iff fun f k => announced?_iff).mpr hnone
    rw [Geometry.ofMarkers, Geometry.bits_foldl, hlast]
    rfl
  · rw [Geometry.fault?_eq_none_iff]
    exact Prod.forall
  · intro pool m' hpool hm hm'
    refine ⟨fun hstirred => ?_, fun xs ys f g k l hfs hfs' hf hg hne => ?_⟩
    · have hsame := hstirred.filterMap_eq fun f hf => announced?_eq_none_iff.mpr hf
      rw [geometry_eq_ofMarkers hd, hm'.filterMap_announced? hpool, hsame,
        ← hm.filterMap_announced? hpool]
    · have hf' : pool.announced? d f = some k :=
        announced?_iff.mpr ((hm.announces_iff hpool (by simp [hfs])).mpr hf)
      have hg' : pool.announced? d g = some l :=
        announced?_iff.mpr ((hm.announces_iff hpool (by simp [hfs])).mpr hg)
      have hsize : (m'.geometry d).1.size =
          (Geometry.ofMarkers (m.functions.filterMap (m.announced? d))).size := by
        rw [geometry_eq_ofMarkers hd, hm'.filterMap_announced? hpool, hm.filterMap_announced? hpool,
          hfs, hfs', List.filterMap_append, List.filterMap_append, List.filterMap_cons_some hf',
          List.filterMap_cons_some hg', List.filterMap_cons_some hg', List.filterMap_cons_some hf']
        exact Geometry.size_swap hne _ _
      rw [geometry_eq_ofMarkers hd] at hsize ⊢
      exact ⟨hsize, Geometry.fault?_congr hsize⟩

/-- A function that is no marker, a query, and two markers of different sizes and widths. -/
def twoMarkers : ModuleSpec where
  functions := [
    { name := "f", blocks := [⟨"e", [{ op := "ret" }]⟩] },
    { name := "get_local_size", ret := "i64", params := [⟨"d", "i32"⟩] },
    { name := "__axiom_x", ret := "i1"
      blocks := [
        ⟨"e", [{ name := "s", op := "call", args := ["@get_local_size", "i32 0"] },
          { name := "c", op := "icmp", pred := "eq", args := ["%s", "i64 16"] },
          { op := "ret", args := ["%c"] }]⟩] },
    { name := "__axiom_y", ret := "i1"
      blocks := [
        ⟨"e", [{ name := "s", op := "call", args := ["@get_local_size", "i32 1"] },
          { name := "c", op := "icmp", pred := "eq", args := ["%s", "i32 4"] },
          { op := "ret", args := ["%c"] }]⟩] }]

/-- Without the first function the geometry is the same. With the markers the other way round it has
another width. -/
theorem twoMarkers_last_markers :
    ∃ m f query x y, Module.ofSpec twoMarkers = .ok m ∧ m.functions = [f, query, x, y] ∧
    (m.geometry .opencl).2 = some (.dimension .group 0) ∧
    { m with functions := [query, x, y], dropped := f :: m.dropped }.geometry .opencl =
    m.geometry .opencl ∧ ({ m with functions := [f, query, y, x] }.geometry .opencl).1.size =
    (m.geometry .opencl).1.size ∧ ({ m with functions := [f, query, y, x] }.geometry .opencl).2 =
    (m.geometry .opencl).2 ∧ (m.geometry .opencl).1.bits = 32 ∧
    ({ m with functions := [f, query, y, x] }.geometry .opencl).1.bits = 64 := by
  have hread : ∃ m, Module.ofSpec twoMarkers = .ok m ∧
      (m.geometry .opencl).2 = some (.dimension .group 0) ∧ m.functions.map (m.announced? .opencl) =
        [none, none, some ⟨.item, 0, ⟨64, 16⟩⟩, some ⟨.item, 1, ⟨32, 4⟩⟩] :=
    Description.exists_ok_of_any (by decide +kernel)
  obtain ⟨m, hm, hfault, hmarkers⟩ := hread
  obtain ⟨declared, ds, hloads⟩ := Description.Loads.of_ofSpec hm
  have hintact := hloads.intact
  simp only [List.map_eq_cons_iff, List.map_eq_nil_iff] at hmarkers
  obtain ⟨f, _, hfs, hf, query, _, rfl, -, x, _, rfl, hx, y, _, rfl, hy, rfl⟩ := hmarkers
  have hidle := announced?_eq_none_iff.mp hf
  have hx := announced?_iff.mp hx
  have hy := announced?_iff.mp hy
  -- both changes keep every function known, so that the module itself can serve as the pool
  let fewer : Module := { m with functions := [query, x, y], dropped := f :: m.dropped }
  let turned : Module := { m with functions := [f, query, y, x] }
  have hfewer : fewer.Within m := hintact.within (by
    simp only [fewer, known, hfs]
    exact List.perm_middle)
  have hturned : turned.Within m := hintact.within (by
    simp only [turned, known, hfs]
    exact (((List.Perm.swap x y []).cons query).cons f).append_right m.dropped)
  have hself : m.Within m := hintact.within (.refl _)
  obtain ⟨-, hbits, -, -, -, hpairs⟩ := geometry_of_last_markers m (d := .opencl) (Or.inr rfl)
  have hswap :=
    (hpairs m turned hintact.consistent hself hturned).2 [f, query] [] x y _ _ hfs rfl hx hy
    (Or.inr (by decide))
  have hx' : turned.Announces .opencl x ⟨.item, 0, ⟨64, 16⟩⟩ :=
    (hturned.announces_iff hintact.consistent (by simp [turned])).mp hx
  refine ⟨m, f, query, x, y, hm, hfs, hfault, ?_, hswap.1, hswap.2, ?_, ?_⟩
  · refine (hpairs m fewer hintact.consistent hself hfewer).1 ?_
    rw [hfs]
    exact .delete [] [query, x, y] hidle
  · exact hbits _ ⟨[f, query, x], y, [], hfs, hy, by simp⟩
  · exact (geometry_of_last_markers turned (d := .opencl) (Or.inr rfl)).2.1 _ ⟨[f, query, y], x, [],
      rfl, hx', by simp⟩

end Module

end KernelIR
