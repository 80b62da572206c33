import KernelIR.Proofs.Description.Reading
import KernelIR.Proofs.Motion.Relocate
import KernelIR.Proofs.Ownership.Rearranging

namespace KernelIR

theorem getLast?_filter_of_last {α : Type} {l : List α} {p : α → Bool}
    (h : ∀ t, l.getLast? = some t → p t = true) :
    (l.filter p).getLast? = l.getLast? := by
  rcases List.eq_nil_or_concat l with rfl | ⟨body, t, rfl⟩
  · rfl
  · have ht : p t = true := h t (by simp)
    simp [ht]

/-- Two lists of related elements with the same keys are looked up together. -/
theorem exists_find?_of_forall₂ {α : Type} {R : α → α → Prop} {key : α → Nat} {n : Nat}
    {xs ys : List α} (h : List.Forall₂ R xs ys) (hkey : ∀ x y, R x y → key x = key y) {x : α}
    (hx : (xs.find? fun x => key x = n) = some x) :
    ∃ y, (ys.find? fun y => key y = n) = some y ∧ R x y := by
  induction h with
  | nil => simp at hx
  | @cons a b as bs hab _ ih =>
    rw [List.find?_cons] at hx ⊢
    rw [← hkey a b hab]
    by_cases hn : key a = n
    · simp only [hn, decide_true, Option.some.injEq] at hx ⊢
      exact ⟨b, rfl, hx ▸ hab⟩
    · simp only [hn, decide_false] at hx ⊢
      exact ih hx

theorem Func.getLast?_insertInstr (pos : InstrId) (i : Instr) (is : List Instr) :
    (insertInstr pos i is).getLast? = is.getLast? := by
  induction is with
  | nil => rfl
  | cons j js ih =>
    rw [insertInstr]
    split
    · rw [List.getLast?_cons_cons]
    · rw [List.getLast?_cons, List.getLast?_cons, ih]

namespace Block

variable {k k' k'' : Block} {d : InstrId}

/-- Whether a block keeps its end, and all of its instructions if it leads nowhere. -/
structure Steady (k k' : Block) : Prop where
  id : k'.id = k.id
  last : k'.instrs.getLast? = k.instrs.getLast?
  rest : k.succs = [] → k' = k

theorem Steady.refl (k : Block) : k.Steady k := ⟨rfl, rfl, fun _ => rfl⟩

theorem Steady.succs (h : k.Steady k') : k'.succs = k.succs := by
  rw [Block.succs, Block.succs, term?, term?, h.last]

theorem Steady.trans (h : k.Steady k') (h' : k'.Steady k'') : k.Steady k'' := by
  refine ⟨h'.id.trans h.id, h'.last.trans h.last, fun hk => ?_⟩
  rw [h'.rest (h.succs.trans hk), h.rest hk]

/-- Whether an instruction, if it stands in a block, can be taken from there: the block leads
somewhere, and it is not the last one. -/
def Yields (k : Block) (d : InstrId) : Prop :=
  k.holds d = true → k.succs ≠ [] ∧ ∀ t, k.instrs.getLast? = some t → t.id ≠ d

theorem steady_without (h : k.Yields d) : k.Steady (k.without d) := by
  by_cases hd : k.holds d = true
  · obtain ⟨hsuccs, hlast⟩ := h hd
    exact ⟨rfl, getLast?_filter_of_last fun t ht => decide_eq_true (hlast t ht),
      fun hnil => absurd hnil hsuccs⟩
  · rw [without_eq_self fun j hj he => hd (holds_iff.mpr ⟨j, hj, he⟩)]
    exact .refl k

end Block

namespace Func

variable {f g : Func} {d : InstrId}

/-- Whether all blocks of a function are steady. -/
structure Steady (f g : Func) : Prop where
  id : g.id = f.id
  blocks : List.Forall₂ Block.Steady f.blocks g.blocks

theorem steady_of_blocks (hid : g.id = f.id) (hblocks : g.blocks = f.blocks) : f.Steady g :=
  ⟨hid, hblocks ▸ List.forall₂_same.mpr fun k _ => .refl k⟩

theorem Steady.refl (f : Func) : f.Steady f := steady_of_blocks rfl rfl

theorem Steady.trans {h : Func} (hf : f.Steady g) (hg : g.Steady h) : f.Steady h := by
  refine ⟨hg.id.trans hf.id, (forall₂_trans hf.blocks hg.blocks).imp fun k k' hk => ?_⟩
  obtain ⟨_, _, h, h'⟩ := hk
  exact h.trans h'

theorem steady_withdraw (h : ∀ k ∈ f.blocks, k.Yields d) : f.Steady (f.withdraw d) := by
  refine ⟨rfl, ?_⟩
  rw [withdraw, List.forall₂_map_right_iff]
  exact List.forall₂_same.mpr fun k hk => Block.steady_without (h k hk)

/-- An instruction is put into a block that leads somewhere. -/
theorem steady_mapBlock {n : BlockId} (h : ∀ k ∈ f.blocks, k.id = n → k.succs ≠ []) (pos : InstrId)
    (i : Instr) :
    f.Steady (f.mapBlock n fun b => { b with instrs := insertInstr pos i b.instrs }) := by
  refine ⟨rfl, ?_⟩
  rw [mapBlock, List.forall₂_map_right_iff]
  refine List.forall₂_same.mpr fun k hk => ?_
  split
  · next hid =>
      exact ⟨rfl, getLast?_insertInstr pos i k.instrs, fun hnil => absurd hnil (h k hk hid)⟩
  · exact .refl k

theorem steady_putBefore {n : BlockId} (h : ∀ k ∈ f.blocks, k.id = n → k.succs ≠ [])
    (pos : InstrId) : f.Steady ((putBefore d pos n).after f) := by
  rw [Edit.after, putBefore]
  split_ifs
  · cases f.instr? d with
    | none => exact .refl f
    | some i =>
      exact ⟨rfl, (steady_mapBlock (f := f.dropLoose d) h pos i).blocks⟩
  · exact .refl f

end Func

namespace Module

variable {m m₁ m₂ : Module} {f g : Func} {d : InstrId} {b : BlockRef}

/-- Whether all functions of a module are steady. -/
def Steady (m m' : Module) : Prop := List.Forall₂ Func.Steady m.known m'.known

theorem Steady.refl (m : Module) : m.Steady m := List.forall₂_same.mpr fun f _ => .refl f

theorem Steady.trans (h : m.Steady m₁) (h' : m₁.Steady m₂) : m.Steady m₂ := by
  refine (forall₂_trans h h').imp fun f g hfg => ?_
  obtain ⟨_, _, h, h'⟩ := hfg
  exact h.trans h'

theorem steady_update (hm : (m.known.map Func.id).Nodup) (hf : f ∈ m.known) (h : f.Steady g) :
    m.Steady (m.update g) := by
  rw [Steady, known_update, List.forall₂_map_right_iff]
  refine List.forall₂_same.mpr fun x hx => ?_
  split
  · next hid => rwa [List.inj_on_of_nodup_map hm hx hf (hid.trans h.id)]
  · exact .refl x

theorem steady_edit {α : Type} (hm : m.Distinct) {id : FuncId} {e : Edit Func α}
    (he : ∀ f ∈ m.known, f.id = id → f.Steady (e.after f)) : m.Steady ((edit id e).after m) := by
  rw [after_edit]
  cases hf : m.func? id with
  | none => exact .refl m
  | some f =>
    obtain ⟨hmem, hid⟩ := hm.func?_iff.mp hf
    exact steady_update hm.funcs hmem (he f hmem hid)

/-- Handing over an instruction concerns no block. -/
theorem bodies_handOver (hm : m.Distinct) (d : InstrId) (dst : FuncId) :
    List.Forall₂ (fun f g => g.id = f.id ∧ g.blocks = f.blocks) m.known
      (m.handOver d dst).known := by
  rcases handOver_cases hm d dst with hsame | ⟨f, hf, g, hg, i, _, _, hmoved⟩
  · rw [hsame]
    exact List.forall₂_same.mpr fun _ _ => ⟨rfl, rfl⟩
  rw [hmoved, known_update, known_update, List.forall₂_map_right_iff, List.forall₂_map_right_iff]
  refine List.forall₂_same.mpr fun x hx => ?_
  have hleft : ∀ y : Func, y.id = x.id ∧ y.blocks = x.blocks →
      (if y.id = g.id then { g with loose := g.loose ++ [i] } else y).id = x.id ∧
        (if y.id = g.id then { g with loose := g.loose ++ [i] } else y).blocks = x.blocks := by
    intro y hy
    split
    · next hid =>
      cases List.inj_on_of_nodup_map hm.funcs hx hg (hy.1.symm.trans hid)
      exact ⟨rfl, rfl⟩
    · exact hy
  apply hleft
  split
  · next hid =>
    cases List.inj_on_of_nodup_map hm.funcs hx hf hid
    exact ⟨rfl, rfl⟩
  · exact ⟨rfl, rfl⟩

/-- An instruction is moved from a block that leads somewhere to another one, or was loose. -/
theorem steady_moveBeforeTerm (hm : m.Distinct)
    (hd : ∀ f ∈ m.known, ∀ k ∈ f.blocks, k.Yields d) {dst : BlockRef}
    (hdst : ∀ f ∈ m.known, f.id = dst.func → ∀ k ∈ f.blocks, k.id = dst.number → k.succs ≠ []) :
    m.Steady ((moveBeforeTerm d dst).after m) := by
  cases hterm : (m.block? dst).bind Block.term? with
  | none =>
    rw [Edit.after, moveBeforeTerm, hterm]
    exact .refl m
  | some t =>
    obtain ⟨k, hk, hterm⟩ := Option.bind_eq_some_iff.mp hterm
    obtain ⟨m₁, hrelease, htaken, -⟩ := hm.exists_release d
    have hm₁ := (shuffles_of_release hm htaken).distinct hm
    have hsteady : m.Steady m₁ := by
      rcases htaken with rfl | ⟨f, hf, rfl⟩
      · exact .refl m₁
      · exact steady_update hm.funcs hf (Func.steady_withdraw (hd f hf))
    have hbodies := bodies_handOver hm₁ d dst.func
    have hover : m₁.Steady (m₁.handOver d dst.func) :=
      hbodies.imp fun x y hxy => Func.steady_of_blocks hxy.1 hxy.2
    have hput : (m₁.handOver d dst.func).Steady ((putBefore d t.id dst).after m₁) := by
      refine steady_edit ((shuffles_handOver hm₁ d dst.func).distinct hm₁) fun x hx hid =>
        Func.steady_putBefore (fun b hb hnumber => ?_) t.id
      -- the block that the instruction goes to leads on as it did before
      obtain ⟨y, hy, hxy⟩ := exists_of_mem_right (hsteady.trans hover) hx
      obtain ⟨c, hc, hcb⟩ := exists_of_mem_right hxy.blocks hb
      rw [hcb.succs]
      exact hdst y hy (hxy.id.symm.trans hid) c hc (hcb.id.symm.trans hnumber)
    have hafter : (moveBeforeTerm d dst).after m = (putBefore d t.id dst).after m₁ := by
      rw [Edit.after, moveBeforeTerm_of_release hk hterm hrelease, Edit.after]
    rw [hafter]
    exact (hsteady.trans hover).trans hput

theorem Steady.exists_block (h : m.Steady m₁) {k : Block} (hk : m.block? b = some k) :
    ∃ k', m₁.block? b = some k' ∧ k.Steady k' := by
  obtain ⟨f, hf, hk⟩ := Option.bind_eq_some_iff.mp hk
  obtain ⟨f', hf', hfunc⟩ := exists_find?_of_forall₂ h (fun _ _ hxy => hxy.id.symm) hf
  obtain ⟨k', hk', hblock⟩ := exists_find?_of_forall₂ hfunc.blocks (fun _ _ hxy => hxy.id.symm) hk
  exact ⟨k', Option.bind_eq_some_iff.mpr ⟨f', hf', hk'⟩, hblock⟩

theorem Steady.exists_block_of (h : m.Steady m₁) {k' : Block} (hk : m₁.block? b = some k') :
    ∃ k, m.block? b = some k ∧ k.Steady k' := by
  obtain ⟨f', hf', hk⟩ := Option.bind_eq_some_iff.mp hk
  obtain ⟨f, hf, hfunc⟩ := exists_find?_of_forall₂ (List.Forall₂.flip h) (fun _ _ hxy => hxy.id) hf'
  obtain ⟨k, hk, hblock⟩ := exists_find?_of_forall₂ hfunc.blocks.flip (fun _ _ hxy => hxy.id) hk
  exact ⟨k, Option.bind_eq_some_iff.mpr ⟨f, hf, hk⟩, hblock⟩

/-- Whether a block branches. -/
def Leads (m : Module) (b : BlockRef) : Prop := ∃ k, m.block? b = some k ∧ k.succs ≠ []

theorem Steady.leads_iff (h : m.Steady m₁) : m₁.Leads b ↔ m.Leads b := by
  constructor
  · rintro ⟨k', hk', hne⟩
    obtain ⟨k, hk, hsteady⟩ := h.exists_block_of hk'
    exact ⟨k, hk, hsteady.succs ▸ hne⟩
  · rintro ⟨k, hk, hne⟩
    obtain ⟨k', hk', hsteady⟩ := h.exists_block hk
    exact ⟨k', hk', hsteady.succs.symm ▸ hne⟩

end Module

end KernelIR
