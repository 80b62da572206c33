import KernelIR.Geometry.Basic
import Mathlib.Data.List.Basic
import Mathlib.Data.List.Infix
import Mathlib.Data.List.Nodup

namespace KernelIR

/-- The function that an operand of a node is. -/
def MetadataItem.func? : MetadataItem → Option FuncId
  | .value (.func id) => some id
  | _ => none

namespace MetadataNode

variable {n : MetadataNode} {id : FuncId}

/-- The function that a node begins with. -/
def subject? (n : MetadataNode) : Option FuncId := n.head?.bind MetadataItem.func?

/-- Whether an operand of a node, at any position, is a function. -/
def Mentions (n : MetadataNode) (id : FuncId) : Prop := id ∈ n.filterMap MetadataItem.func?

instance (n : MetadataNode) (id : FuncId) : Decidable (n.Mentions id) :=
  inferInstanceAs (Decidable (id ∈ n.filterMap MetadataItem.func?))

theorem refersTo_iff : n.refersTo id = true ↔ n.subject? = some id := by
  unfold refersTo
  split
  · simp [subject?, MetadataItem.func?]
  · next hne =>
    refine iff_of_false Bool.false_ne_true fun h => ?_
    obtain ⟨item, hitem, hid⟩ := Option.bind_eq_some_iff.mp h
    obtain ⟨rest, rfl⟩ := List.head?_eq_some_iff.mp hitem
    unfold MetadataItem.func? at hid
    split at hid
    · exact hne _ _ rfl
    · cases hid

end MetadataNode

namespace MetadataTable

variable {t : MetadataTable} {n : MetadataNode} {ids : List FuncId}

/-- A table without the nodes that begin with one of the functions `ids`. -/
def sparing (ids : List FuncId) (t : MetadataTable) : MetadataTable :=
  { t with nodes := t.nodes.filter fun n => n.subject?.all fun id => id ∉ ids }

theorem mem_sparing : n ∈ (t.sparing ids).nodes ↔
    n ∈ t.nodes ∧ ∀ id ∈ ids, n.subject? ≠ some id := by
  rw [sparing, List.mem_filter, Option.all_eq_true]
  refine and_congr_right fun _ => ?_
  simp only [decide_eq_true_eq]
  exact ⟨fun h id hid hn => h id hn hid, fun h id hn hid => h id hid hn⟩

@[simp] theorem sparing_nil (t : MetadataTable) : t.sparing [] = t := by
  simp [sparing]

theorem sparing_sparing (ids more : List FuncId) (t : MetadataTable) :
    (t.sparing ids).sparing more = t.sparing (ids ++ more) := by
  simp only [sparing, List.filter_filter]
  congr 1
  refine List.filter_congr fun n _ => ?_
  cases n.subject? with
  | none => rfl
  | some id => simp [not_or, Bool.and_comm]

theorem sparing_eq_self (h : ∀ n ∈ t.nodes, ∀ id ∈ ids, n.subject? ≠ some id) :
    t.sparing ids = t := by
  have hnodes : (t.sparing ids).nodes = t.nodes :=
    List.filter_eq_self.mpr fun n hn => (List.mem_filter.mp (mem_sparing.mpr ⟨hn, h n hn⟩)).2
  exact congrArg (MetadataTable.mk t.name) hnodes

/-- The nodes about a function that stays are kept. -/
theorem filter_refersTo_sparing {id : FuncId} (hid : id ∉ ids) (t : MetadataTable) :
    ((t.sparing ids).nodes.filter fun n => n.refersTo id) = t.nodes.filter fun n =>
      n.refersTo id := by
  rw [sparing, List.filter_filter]
  refine List.filter_congr fun n _ => ?_
  by_cases hn : n.refersTo id = true
  · rw [hn, MetadataNode.refersTo_iff.mp hn]
    simpa using hid
  · rw [Bool.not_eq_true] at hn
    rw [hn, Bool.false_and]

end MetadataTable

namespace Func

/-- Whether the name of a function begins like that of a marker. -/
def Marked (f : Func) : Prop := "__axiom".toList <+: f.name.toList

instance : DecidablePred Marked :=
  fun f => inferInstanceAs (Decidable ("__axiom".toList <+: f.name.toList))

theorem isMarker_eq (f : Func) : f.isMarker = decide f.Marked := by
  rw [Bool.eq_iff_iff, isMarker, List.isPrefixOf_iff_prefix, decide_eq_true_eq]
  exact Iff.rfl

end Func

namespace Module

variable {m m' : Module} {f : Func} {id : FuncId}

theorem removeFunction?_of_mem (h : id ∈ m.functions.map Func.id) : m.removeFunction? id = some
    { m with
      functions := m.functions.filter fun f => f.id ≠ id
      dropped := m.dropped ++ m.functions.filter fun f => f.id = id
      tables := m.tables.map (MetadataTable.sparing [id]) } := by
  have hany : (m.functions.any fun f => f.id = id) = true := by
    simpa [List.any_eq_true] using h
  have hnodes : ∀ n : MetadataNode, (!n.refersTo id) = n.subject?.all fun k => k ∉ [id] := by
    intro n
    rw [Bool.eq_iff_iff, Bool.not_eq_true', ← Bool.not_eq_true, MetadataNode.refersTo_iff,
      Option.all_eq_true]
    simp only [List.mem_singleton, decide_eq_true_eq]
    exact ⟨fun h k hk he => h (he ▸ hk), fun h hn => h id hn rfl⟩
  rw [removeFunction?, if_pos hany]
  simp only [hnodes]
  rfl

theorem removeFunction?_eq_none (h : id ∉ m.functions.map Func.id) :
    m.removeFunction? id = none := by
  have hany : ¬(m.functions.any fun f => f.id = id) = true := by
    simpa [List.any_eq_true] using h
  rw [removeFunction?, if_neg hany]

theorem mem_functions_of_removeFunction? (h : m.removeFunction? id = some m') :
    id ∈ m.functions.map Func.id := by
  by_contra hid
  rw [removeFunction?_eq_none hid] at h
  cases h

/-- Whether a function is there, or nothing is said about it. -/
def Covers (m : Module) (id : FuncId) : Prop :=
  id ∈ m.functions.map Func.id ∨ ∀ t ∈ m.tables, ∀ n ∈ t.nodes, n.subject? ≠ some id

/-- Takes a function out if it is there. -/
def discard (m : Module) (f : Func) : Module := (m.removeFunction? f.id).getD m

theorem discard_of_mem (h : f.id ∈ m.functions.map Func.id) : m.discard f =
    { m with
      functions := m.functions.filter fun g => g.id ≠ f.id
      dropped := m.dropped ++ m.functions.filter fun g => g.id = f.id
      tables := m.tables.map (MetadataTable.sparing [f.id]) } := by
  rw [discard, removeFunction?_of_mem h]
  rfl

/-- One function is taken out of the list and of every table. -/
theorem discard_step (h : m.Covers f.id) :
    (m.discard f).name = m.name ∧ (m.discard f).globals = m.globals ∧
    ((m.discard f).functions = m.functions.filter fun g => g.id ≠ f.id) ∧
    (m.discard f).tables = m.tables.map (MetadataTable.sparing [f.id]) := by
  by_cases hf : f.id ∈ m.functions.map Func.id
  · rw [discard_of_mem hf]
    exact ⟨rfl, rfl, rfl, rfl⟩
  · have hsame : m.discard f = m := by rw [discard, removeFunction?_eq_none hf, Option.getD_none]
    rw [hsame]
    refine ⟨rfl, rfl, ?_, ?_⟩
    · symm
      exact List.filter_eq_self.mpr fun g hg =>
        decide_eq_true fun he => hf (he ▸ List.mem_map_of_mem hg)
    · have hspared : ∀ t ∈ m.tables, t.sparing [f.id] = t := fun t ht =>
        MetadataTable.sparing_eq_self fun n hn id hid =>
          List.mem_singleton.mp hid ▸ h.resolve_left hf t ht n hn
      rw [List.map_congr_left hspared, List.map_id']

theorem Covers.discard (hf : m.Covers f.id) (h : m.Covers id) : (m.discard f).Covers id := by
  obtain ⟨-, -, hfunctions, htables⟩ := discard_step hf
  rw [Covers, hfunctions, htables]
  by_cases hid : id = f.id
  · right
    intro t ht n hn
    obtain ⟨t, ht, rfl⟩ := List.mem_map.mp ht
    exact hid ▸ (MetadataTable.mem_sparing.mp hn).2 f.id (List.mem_singleton_self _)
  · refine h.imp (fun h => ?_) fun h t ht n hn => ?_
    · obtain ⟨g, hg, rfl⟩ := List.mem_map.mp h
      exact List.mem_map_of_mem (List.mem_filter.mpr ⟨hg, decide_eq_true hid⟩)
    · obtain ⟨u, hu, rfl⟩ := List.mem_map.mp ht
      exact h u hu n (MetadataTable.mem_sparing.mp hn).1

/-- Functions that are taken out one after the other are filtered out at once. -/
theorem discard_run (fs : List Func) (h : ∀ f ∈ fs, m.Covers f.id) :
    (fs.foldl discard m).name = m.name ∧ (fs.foldl discard m).globals = m.globals ∧
    ((fs.foldl discard m).functions = m.functions.filter fun g => g.id ∉ fs.map Func.id) ∧
    (fs.foldl discard m).tables = m.tables.map (MetadataTable.sparing (fs.map Func.id)) := by
  induction fs generalizing m with
  | nil => simp [funext MetadataTable.sparing_nil]
  | cons f fs ih =>
    have hf := h f List.mem_cons_self
    obtain ⟨hname, hglobals, hfunctions, htables⟩ := discard_step hf
    obtain ⟨hname', hglobals', hfunctions', htables'⟩ :=
      ih (m := m.discard f) fun g hg => hf.discard (h g (List.mem_cons_of_mem _ hg))
    rw [List.foldl_cons]
    refine ⟨hname'.trans hname, hglobals'.trans hglobals, ?_, ?_⟩
    · rw [hfunctions', hfunctions, List.filter_filter]
      refine List.filter_congr fun g _ => ?_
      simp [not_or, Bool.and_comm]
    · rw [htables', htables, List.map_map]
      exact List.map_congr_left fun t _ => MetadataTable.sparing_sparing [f.id] _ t

theorem filter_id_eq_singleton (hm : (m.functions.map Func.id).Nodup) (hf : f ∈ m.functions) :
    (m.functions.filter fun g => g.id = f.id) = [f] := by
  obtain ⟨l, r, hlr⟩ := List.append_of_mem hf
  rw [hlr, List.map_append, List.map_cons, List.nodup_middle, List.nodup_cons,
    ← List.map_append] at hm
  have hother : ∀ g ∈ l ++ r, ¬decide (g.id = f.id) = true := fun g hg he =>
    hm.1 (List.mem_map.mpr ⟨g, hg, of_decide_eq_true he⟩)
  rw [List.filter_eq_cons_iff]
  refine ⟨l, r, hlr, fun g hg => hother g (List.mem_append_left _ hg), decide_eq_true rfl, ?_⟩
  exact List.filter_eq_nil_iff.mpr fun g hg => hother g (List.mem_append_right _ hg)

/-- They are kept aside in the order in which they are taken out. -/
theorem dropped_run (fs : List Func) (hfs : fs.Sublist m.functions)
    (hm : (m.functions.map Func.id).Nodup) :
    (fs.foldl discard m).dropped = m.dropped ++ fs := by
  induction fs generalizing m with
  | nil => simp
  | cons f fs ih =>
    have hf : f ∈ m.functions := hfs.subset List.mem_cons_self
    have hids : ((f :: fs).map Func.id).Nodup := hm.sublist (hfs.map _)
    rw [List.map_cons, List.nodup_cons] at hids
    have hkept : ((f :: fs).filter fun g => g.id ≠ f.id) = fs := by
      rw [List.filter_cons_of_neg (by simp)]
      exact List.filter_eq_self.mpr fun g hg =>
        decide_eq_true fun he => hids.1 (he ▸ List.mem_map_of_mem hg)
    rw [List.foldl_cons, discard_of_mem (List.mem_map_of_mem hf), ih]
    · simp [filter_id_eq_singleton hm hf]
    · exact hkept ▸ hfs.filter _
    · exact hm.sublist (List.filter_sublist.map _)

/-- The functions that are known for markers by their names. -/
def marked (m : Module) : List Func := m.functions.filter fun f => f.Marked

theorem markerFuncs_eq (m : Module) : m.markerFuncs = m.marked :=
  List.filter_congr fun f _ => f.isMarker_eq

theorem stripMarkers_eq (m : Module) :
    m.stripMarkers = (m.marked.length, m.marked.foldl discard m) := by
  rw [stripMarkers, markerFuncs_eq]
  rfl

theorem covers_of_mem_marked (hf : f ∈ m.marked) : m.Covers f.id :=
  Or.inl (List.mem_map_of_mem (List.mem_of_mem_filter hf))

/-- Where the functions `ids` are mentioned after the nodes that begin with one of them are gone. -/
theorem forall_not_mentions_sparing_iff (m : Module) (ids : List FuncId) :
    (∀ id ∈ ids, ∀ t ∈ m.tables.map (MetadataTable.sparing ids), ∀ n ∈ t.nodes, ¬n.Mentions id) ↔
      ∀ id ∈ ids,
        ∀ t ∈ m.tables, ∀ n ∈ t.nodes, n.Mentions id → ∃ k ∈ ids, n.subject? = some k := by
  constructor
  · intro h id hid t ht n hn hmentions
    by_contra hsubject
    have hkept : n ∈ (t.sparing ids).nodes :=
      MetadataTable.mem_sparing.mpr ⟨hn, fun k hk he => hsubject ⟨k, hk, he⟩⟩
    exact h id hid _ (List.mem_map_of_mem ht) n hkept hmentions
  · intro h id hid t ht n hn hmentions
    obtain ⟨u, hu, rfl⟩ := List.mem_map.mp ht
    obtain ⟨hnu, hspared⟩ := MetadataTable.mem_sparing.mp hn
    obtain ⟨k, hk, hsubject⟩ := h id hid u hu n hnu hmentions
    exact hspared k hk hsubject

/-- After a function is taken out, no node begins with it. That no node mentions it at all holds if
and only if every node that mentioned it began with it. It is the same with the markers, where a
node may begin with any of them. -/
theorem removal_clears_references (m : Module) :
    (∀ id m', m.removeFunction? id = some m' →
      (∀ t ∈ m'.tables, ∀ n ∈ t.nodes, n.subject? ≠ some id) ∧
      ((∀ t ∈ m'.tables, ∀ n ∈ t.nodes, ¬n.Mentions id) ↔
        ∀ t ∈ m.tables, ∀ n ∈ t.nodes, n.Mentions id → n.subject? = some id)) ∧
    (∀ f ∈ m.marked, ∀ t ∈ m.stripMarkers.2.tables, ∀ n ∈ t.nodes, n.subject? ≠ some f.id) ∧
    ((∀ f ∈ m.marked, ∀ t ∈ m.stripMarkers.2.tables, ∀ n ∈ t.nodes, ¬n.Mentions f.id) ↔
      ∀ f ∈ m.marked, ∀ t ∈ m.tables,
        ∀ n ∈ t.nodes, n.Mentions f.id → ∃ g ∈ m.marked, n.subject? = some g.id) := by
  have hsubject : ∀ ids :
      List FuncId, ∀ id ∈ ids, ∀ t ∈ m.tables.map (MetadataTable.sparing ids), ∀ n ∈ t.nodes,
      n.subject? ≠ some id := by
    intro ids id hid t ht n hn
    obtain ⟨u, hu, rfl⟩ := List.mem_map.mp ht
    exact (MetadataTable.mem_sparing.mp hn).2 id hid
  refine ⟨fun id m' hm' => ?_, ?_⟩
  · rw [removeFunction?_of_mem (mem_functions_of_removeFunction? hm')] at hm'
    cases hm'
    exact ⟨hsubject [id] id (List.mem_singleton_self id),
      by simpa using m.forall_not_mentions_sparing_iff [id]⟩
  · have htables := (discard_run m.marked fun f hf => covers_of_mem_marked hf).2.2.2
    rw [stripMarkers_eq, htables]
    refine ⟨fun f hf => hsubject _ f.id (List.mem_map_of_mem hf), ?_⟩
    simpa using m.forall_not_mentions_sparing_iff (m.marked.map Func.id)

/-- A kernel between two markers, and nodes that begin with them or mention none. -/
def kernelBetweenMarkers : Module where
  name := "markers"
  functions :=
    [.declare 0 "__axiom_x" .i1 [], .declare 1 "k" .void [], .declare 2 "__axiom_y" .i1 []]
  tables := [⟨"notes", [[.value (.func 0), .value (.func 2)], [.text "see"]]⟩,
    ⟨"opencl.kernels", [[.value (.func 2)], [.value (.func 1), .text "kernel"], []]⟩]

theorem kernelBetweenMarkers_clears_references :
    (∃ m', kernelBetweenMarkers.removeFunction? 0 = some m' ∧
      ∀ t ∈ m'.tables, ∀ n ∈ t.nodes, ¬n.Mentions 0) ∧
    ∀ f ∈ kernelBetweenMarkers.marked,
      ∀ t ∈ kernelBetweenMarkers.stripMarkers.2.tables, ∀ n ∈ t.nodes, ¬n.Mentions f.id := by
  obtain ⟨hremoved, -, hstripped⟩ := removal_clears_references kernelBetweenMarkers
  have hmem : 0 ∈ kernelBetweenMarkers.functions.map Func.id := by decide
  refine ⟨⟨_, removeFunction?_of_mem hmem, (hremoved 0 _ (removeFunction?_of_mem hmem)).2.mpr ?_⟩,
    hstripped.mpr ?_⟩
  · decide
  · decide

/-- A table with a node whose second operand is a marker. -/
def markerMentionedSecond : Module :=
  kernelBetweenMarkers.addMetadata "notes" [.text "see", .value (.func 2)]

/-- The node stays when the marker is taken out. -/
theorem markerMentionedSecond_keeps_reference :
    (∃ m', markerMentionedSecond.removeFunction? 2 = some m' ∧
      ∃ t ∈ m'.tables, ∃ n ∈ t.nodes, n.Mentions 2) ∧
    ∃ f ∈ markerMentionedSecond.marked,
      ∃ t ∈ markerMentionedSecond.stripMarkers.2.tables, ∃ n ∈ t.nodes, n.Mentions f.id := by
  refine ⟨⟨_, rfl, ?_⟩, ?_⟩
  · decide
  · decide

/-- The nodes about a function that stays are found as before. -/
theorem nodesOf_of_tables {ids : List FuncId}
    (h : m'.tables = m.tables.map (MetadataTable.sparing ids)) (hid : id ∉ ids)
    (name : String) : m'.nodesOf name id = m.nodesOf name id := by
  have htable : m'.table? name = (m.table? name).map (MetadataTable.sparing ids) := by
    rw [table?, table?, h, List.find?_map]
    rfl
  rw [nodesOf, nodesOf, htable]
  cases m.table? name with
  | none => rfl
  | some t => exact MetadataTable.filter_refersTo_sparing hid t

theorem isEntryPoint_of_tables {ids : List FuncId}
    (h : m'.tables = m.tables.map (MetadataTable.sparing ids))
    (hid : id ∉ ids) (d : Dialect) : m'.isEntryPoint id d = m.isEntryPoint id d := by
  cases d with
  | cuda => simp only [isEntryPoint, nodesOf_of_tables h hid]
  | opencl => simp only [isEntryPoint, nodesOf_of_tables h hid]
  | c => rfl
  | unassigned code => rfl

/-- A function is a marker if it has the identity of one. -/
theorem mem_marked_ids_iff (hm : (m.functions.map Func.id).Nodup) (hf : f ∈ m.functions) :
    f.id ∈ m.marked.map Func.id ↔ f.Marked := by
  constructor
  · intro h
    obtain ⟨g, hg, hid⟩ := List.mem_map.mp h
    obtain ⟨hg, hmarked⟩ := List.mem_filter.mp hg
    rw [List.inj_on_of_nodup_map hm hg hf hid] at hmarked
    exact of_decide_eq_true hmarked
  · exact fun h => List.mem_map_of_mem (List.mem_filter.mpr ⟨hf, decide_eq_true h⟩)

/-- What is left without the markers. -/
theorem stripped (hm : (m.functions.map Func.id).Nodup) : m.stripMarkers = (m.marked.length,
    { m with
      functions := m.functions.filter fun f => ¬f.Marked
      dropped := m.dropped ++ m.marked
      tables := m.tables.map (MetadataTable.sparing (m.marked.map Func.id)) }) := by
  obtain ⟨hname, hglobals, hfunctions, htables⟩ :=
    discard_run m.marked fun f hf => covers_of_mem_marked hf
  have hdropped := dropped_run m.marked List.filter_sublist hm
  have hothers : (m.functions.filter fun f => f.id ∉ m.marked.map Func.id) =
      m.functions.filter fun f => ¬f.Marked :=
    List.filter_congr fun f hf => by simp only [mem_marked_ids_iff hm hf]
  rw [stripMarkers_eq, ← hothers, ← hfunctions, ← htables, ← hdropped, ← hname, ← hglobals]

theorem entryPoints_stripped (hm : (m.functions.map Func.id).Nodup) (d : Dialect) :
    m.stripMarkers.2.entryPoints d = (m.entryPoints d).filter fun f => ¬f.Marked := by
  rw [stripped hm, entryPoints, entryPoints, List.filter_filter, List.filter_filter]
  refine List.filter_congr fun f hf => ?_
  by_cases hmarked : f.Marked
  · simp [hmarked]
  · have hid : f.id ∉ m.marked.map Func.id := fun h => hmarked ((mem_marked_ids_iff hm hf).mp h)
    rw [isEntryPoint_of_tables rfl hid, Bool.and_comm]

/-- Taking out the markers leaves exactly the other functions, in order, and exactly the nodes that
begin with none of the markers. The kernels are those that were kernels before and are no markers.
Nothing is left for a second time. -/
theorem stripMarkers_filters (m : Module) (hm : (m.functions.map Func.id).Nodup) :
    m.stripMarkers.1 = (m.functions.filter fun f => f.Marked).length ∧
    m.stripMarkers.2.name = m.name ∧ m.stripMarkers.2.globals = m.globals ∧
    (m.stripMarkers.2.functions = m.functions.filter fun f => ¬f.Marked) ∧
    (m.stripMarkers.2.tables = m.tables.map fun t =>
      ⟨t.name, t.nodes.filter fun n => ∀ f ∈ m.functions, f.Marked → n.subject? ≠ some f.id⟩) ∧
    (∀ d, m.stripMarkers.2.entryPoints d = (m.entryPoints d).filter fun f => ¬f.Marked) ∧
    m.stripMarkers.2.stripMarkers = (0, m.stripMarkers.2) := by
  have htables : m.tables.map (MetadataTable.sparing (m.marked.map Func.id)) = m.tables.map fun t =>
      ⟨t.name, t.nodes.filter fun n => ∀ f ∈ m.functions, f.Marked → n.subject? ≠ some f.id⟩ := by
    refine List.map_congr_left fun t _ =>
      congrArg (MetadataTable.mk t.name) (List.filter_congr fun n _ => ?_)
    rw [Bool.eq_iff_iff, Option.all_eq_true, decide_eq_true_eq]
    constructor
    · intro h f hf hmarked hn
      exact of_decide_eq_true (h f.id hn) ((mem_marked_ids_iff hm hf).mpr hmarked)
    · intro h id hn
      refine decide_eq_true fun hid => ?_
      obtain ⟨f, hf, rfl⟩ := List.mem_map.mp hid
      obtain ⟨hf, hmarked⟩ := List.mem_filter.mp hf
      exact h f hf (of_decide_eq_true hmarked) hn
  have hagain : m.stripMarkers.2.marked = [] := by
    rw [stripped hm, marked, List.filter_filter, List.filter_eq_nil_iff]
    simp
  refine ⟨?_, ?_, ?_, ?_, ?_, fun d => entryPoints_stripped hm d, ?_⟩
  · rw [stripped hm, marked]
  · rw [stripped hm]
  · rw [stripped hm]
  · rw [stripped hm]
  · rw [stripped hm, htables]
  · rw [stripMarkers_eq m.stripMarkers.2, hagain]
    rfl

/-- Two markers and the first node of each table go. One marker was a kernel, and the other kernel
keeps its node. -/
theorem kernelBetweenMarkers_filters : kernelBetweenMarkers.stripMarkers.1 = 2 ∧
    kernelBetweenMarkers.stripMarkers.2.functions.map Func.name = ["k"] ∧
    kernelBetweenMarkers.stripMarkers.2.tables.map (fun t => t.nodes.map MetadataNode.subject?) =
    [[none], [some 1, none]] ∧ (kernelBetweenMarkers.entryPoints .opencl).map Func.name =
    ["k", "__axiom_y"] ∧
    (kernelBetweenMarkers.stripMarkers.2.entryPoints .opencl).map Func.name = ["k"] ∧
    kernelBetweenMarkers.stripMarkers.2.stripMarkers =
    (0, kernelBetweenMarkers.stripMarkers.2) := by
  have hdistinct : (kernelBetweenMarkers.functions.map Func.id).Nodup := by decide
  obtain ⟨hcount, -, -, hfunctions, htables, hentries, hagain⟩ :=
    stripMarkers_filters kernelBetweenMarkers hdistinct
  refine ⟨hcount, ?_, ?_, by decide, ?_, hagain⟩
  · rw [hfunctions]
    decide
  · rw [htables]
    decide
  · rw [hentries]
    decide

end Module

end KernelIR
