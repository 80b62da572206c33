import KernelIR.Preheader

namespace KernelIR

/-- A phi with other entries. -/
def Instr.withEntries (i : Instr) (entries : List (Value × BlockRef)) : Instr :=
  { i with operands := entries.map Prod.fst, incoming := entries.map Prod.snd }

def Instr.setEntries (d : InstrId) (entries : List (Value × BlockRef)) (i : Instr) : Instr :=
  if i.id = d then i.withEntries entries else i

def Block.mapInstrs (σ : Instr → Instr) (k : Block) : Block := { k with instrs := k.instrs.map σ }

/-- The entries of a phi that come from some blocks, and the others. -/
def Operation.moved (outs : List BlockRef) (o : Operation) : List (Value × BlockRef) :=
  o.entries.filter fun e => outs.contains e.2

def Operation.kept (outs : List BlockRef) (o : Operation) : List (Value × BlockRef) :=
  o.entries.filter fun e => !outs.contains e.2

namespace Func

theorem map_insertBefore {P : Block → Bool} {F : Block → Block} (h : ∀ k, P (F k) = P k) (n : Block)
    (ks : List Block) : (insertBefore P n ks).map F = insertBefore P (F n) (ks.map F) := by
  induction ks with
  | nil => rfl
  | cons k ks ih =>
    rw [insertBefore, List.map_cons, insertBefore, h]
    split
    · rfl
    · rw [List.map_cons, ih]

variable (f : Func) (l : Loop)

/-- The number of the new block. -/
def fresh : BlockId := f.maxBlock + 1

/-- A block whose branches to the header, if it is not in the loop, lead to the new block. -/
def rewired (k : Block) : Block :=
  if (f.entering l).contains k.id then k.redirect l.header (f.ref f.fresh) else k

/-- The function with a new block of instructions before the header, the branches from outside the
loop led there, and every other instruction changed by `σ`. -/
def expand (σ : Instr → Instr) (new : List Instr) : Func :=
  { f with
    blocks := insertBefore (fun k => k.id = l.header.number)
      ⟨f.fresh, f.label l.header.number ++ ".preheader", f.id, new⟩
      (f.blocks.map fun k => (f.rewired l k).mapInstrs σ)
    loose := f.loose.map σ
    parents := (new.map fun i => (i.id, f.ref f.fresh)).reverse ++ f.parents
    maxBlock := f.fresh
    nextSerial := f.nextSerial + new.length }

/-- The identity of the instruction that is made next when `n` were made. -/
def made (n : Nat) : InstrId := ⟨f.id, f.nextSerial + n⟩

variable {f l} {σ : Instr → Instr} {new : List Instr}

theorem id_rewired (k : Block) : (f.rewired l k).id = k.id := by
  rw [rewired]
  split
  · rfl
  · rfl

theorem expand_self : f.expand l (fun i => i) [] = { f with
    maxBlock := f.fresh
    blocks := insertBefore (fun k => k.id = l.header.number)
      ⟨f.fresh, f.label l.header.number ++ ".preheader", f.id, []⟩
      (f.blocks.map fun k => if (f.entering l).contains k.id then
        k.redirect l.header (f.ref f.fresh) else k) } := by
  simp only [expand, Block.mapInstrs, List.map_id', List.map_nil, List.reverse_nil, List.nil_append,
    rewired, List.length_nil, Nat.add_zero]

theorem setEntries_expand (d : InstrId) (es : List (Value × BlockRef)) :
    (f.expand l σ new).setEntries d es =
      f.expand l (Instr.setEntries d es ∘ σ) (new.map (Instr.setEntries d es)) := by
  let after := f.expand l (Instr.setEntries d es ∘ σ) (new.map (Instr.setEntries d es))
  have hblocks :
      (f.expand l σ new).blocks.map (Block.mapInstrs (Instr.setEntries d es)) = after.blocks := by
    rw [expand, map_insertBefore]
    · rw [List.map_map]
      simp [after, expand, Block.mapInstrs, Function.comp_def]
    · exact fun k => rfl
  have hloose : (f.expand l σ new).loose.map (Instr.setEntries d es) = after.loose := by
    rw [expand, List.map_map]
    rfl
  have hids : ∀ i : Instr, (i.setEntries d es).id = i.id := by
    intro i
    rw [Instr.setEntries]
    split
    · rfl
    · rfl
  change { f.expand l σ new with
    blocks := (f.expand l σ new).blocks.map (Block.mapInstrs (Instr.setEntries d es))
    loose := (f.expand l σ new).loose.map (Instr.setEntries d es) } = after
  rw [hblocks, hloose]
  simp [after, expand, Function.comp_def, hids]

theorem emit_expand (hblocks : ∀ k ∈ f.blocks, k.id ≤ f.maxBlock) (o : Operation) :
    (f.expand l σ new).emit f.fresh o =
    f.expand l σ (new ++ [{ o with id := f.made new.length }]) := by
  let put (k : Block) : Block :=
    if k.id = f.fresh then
      { k with instrs := k.instrs ++ [{ o with id := f.made new.length }] } else k
  let after := f.expand l σ (new ++ [{ o with id := f.made new.length }])
  have hold : ∀ k ∈ f.blocks, put ((f.rewired l k).mapInstrs σ) = (f.rewired l k).mapInstrs σ := by
    intro k hk
    apply if_neg
    have hle := hblocks k hk
    have hid : ((f.rewired l k).mapInstrs σ).id = k.id := id_rewired k
    rw [hid]
    exact Nat.ne_of_lt (Nat.lt_succ_of_le hle)
  have hblocks : (f.expand l σ new).blocks.map put = after.blocks := by
    rw [expand, map_insertBefore]
    · rw [List.map_map, Function.comp_def, List.map_congr_left hold]
      simp [after, expand, put]
    · intro k
      by_cases hk : k.id = f.fresh
      · simp [put, hk]
      · simp [put, hk]
  change { f.expand l σ new with
    blocks := (f.expand l σ new).blocks.map put
    parents := (f.made new.length, f.ref f.fresh) :: (f.expand l σ new).parents
    nextSerial := f.nextSerial + new.length + 1 } = after
  rw [hblocks]
  simp [after, expand, Nat.add_assoc]

/-- What joining the values of phis in the new block comes to: a phi `φ` takes from there the only
value that came from outside, or the result of a new phi over the values that did. If none did, it
stays. -/
structure Joins (f : Func) (outs : List BlockRef) (φs : List Instr) (σ : Instr → Instr)
    (new : List Instr) :
    Prop where
  same : ∀ i, (σ i).id = i.id ∧ (σ i).op = i.op ∧ (σ i).targets = i.targets
  others : ∀ i, i.id ∉ φs.map Instr.id → σ i = i
  joined : ∀ φ ∈ φs, (φ.moved outs = [] ∧ σ φ = φ) ∨
    ∃ v, σ φ = φ.withEntries (φ.kept outs ++ [(v, f.ref f.fresh)]) ∧
      ((∃ o, φ.moved outs = [(v, o)]) ∨ ∃ j ∈ new, v = .instr j.id ∧ j.entries = φ.moved outs)
  made : ∀ j ∈ new, j.op = .phi ∧
    ∃ φ ∈ φs, j.operands = (φ.moved outs).map Prod.fst ∧ j.incoming = (φ.moved outs).map Prod.snd
  ids : new.map Instr.id = (List.range new.length).map f.made
  titles : ∀ i, (σ i).name = i.name ∧ (σ i).ty = i.ty
  plain : ∀ j ∈ new, j.targets = []
  names : (new.map fun j => j.name) =
    (φs.filter fun φ => 2 ≤ (φ.moved outs).length).map fun φ => φ.name ++ ".ph"

variable {outs : List BlockRef} {φs : List Instr} {φ : Instr}

theorem joins_nil : Joins f outs [] (fun i => i) [] :=
  ⟨fun _ => ⟨rfl, rfl, rfl⟩, fun _ _ => rfl, by simp, by simp, rfl, fun _ => ⟨rfl, rfl⟩,
    by simp, rfl⟩

/-- One more phi is given its new entries, perhaps with a new phi made for it. -/
theorem Joins.set (h : Joins f outs φs σ new) (hφ : φ.id ∉ φs.map Instr.id) (v : Value)
    (more : List Instr) (hv : (∃ o, φ.moved outs = [(v, o)]) ∨
      ∃ j ∈ new ++ more, v = .instr j.id ∧ j.entries = φ.moved outs)
    (hmore : ∀ j ∈ more, j.op = .phi ∧ j.operands = (φ.moved outs).map Prod.fst ∧
      j.incoming = (φ.moved outs).map Prod.snd)
    (hids : (new ++ more).map Instr.id = (List.range (new ++ more).length).map f.made)
    (hplain : ∀ j ∈ more, j.targets = [])
    (hnames : (more.map fun j => j.name) = if 2 ≤ (φ.moved outs).length then [φ.name ++ ".ph"]
      else []) :
    Joins f outs (φs ++ [φ]) (Instr.setEntries φ.id (φ.kept outs ++ [(v, f.ref f.fresh)]) ∘ σ)
      (new ++ more) where
  same i := by
    rw [Function.comp_apply, Instr.setEntries]
    split
    · exact h.same i
    · exact h.same i
  others i hi := by
    rw [List.map_append, List.mem_append, not_or] at hi
    rw [Function.comp_apply, h.others i hi.1, Instr.setEntries, if_neg]
    exact fun he => hi.2 (List.mem_singleton.mpr he)
  joined ψ hψ := by
    rcases List.mem_append.mp hψ with hψ | hψ
    · have hne : (σ ψ).id ≠ φ.id := by
        rw [(h.same ψ).1]
        exact fun he => hφ (he ▸ List.mem_map_of_mem hψ)
      rw [Function.comp_apply, Instr.setEntries, if_neg hne]
      refine (h.joined ψ hψ).imp_right fun hjoined => ?_
      obtain ⟨u, hu, hfrom⟩ := hjoined
      refine ⟨u, hu, hfrom.imp_right fun hj => ?_⟩
      obtain ⟨j, hj, hju⟩ := hj
      exact ⟨j, List.mem_append_left _ hj, hju⟩
    · rw [List.mem_singleton.mp hψ]
      refine Or.inr ⟨v, ?_, hv⟩
      rw [Function.comp_apply, h.others φ hφ, Instr.setEntries, if_pos rfl]
  made j hj := by
    rcases List.mem_append.mp hj with hj | hj
    · obtain ⟨hop, ψ, hψ, hentries⟩ := h.made j hj
      exact ⟨hop, ψ, List.mem_append_left _ hψ, hentries⟩
    · obtain ⟨hop, hentries⟩ := hmore j hj
      exact ⟨hop, φ, List.mem_append_right _ List.mem_cons_self, hentries⟩
  ids := hids
  titles i := by
    rw [Function.comp_apply, Instr.setEntries]
    split
    · exact h.titles i
    · exact h.titles i
  plain j hj := by
    rcases List.mem_append.mp hj with hj | hj
    · exact h.plain j hj
    · exact hplain j hj
  names := by
    rw [List.map_append, h.names, hnames, List.filter_append, List.map_append]
    by_cases hjoin : 2 ≤ (φ.moved outs).length
    · rw [if_pos hjoin, List.filter_cons_of_pos (by simpa using hjoin)]
      rfl
    · rw [if_neg hjoin, List.filter_cons_of_neg (by simpa using hjoin)]
      rfl

/-- One more phi has nothing to join. -/
theorem Joins.skip (h : Joins f outs φs σ new) (hφ : φ.id ∉ φs.map Instr.id)
    (hmoved : φ.moved outs = []) :
    Joins f outs (φs ++ [φ]) σ new where
  same := h.same
  others i hi := by
    rw [List.map_append, List.mem_append, not_or] at hi
    exact h.others i hi.1
  joined ψ hψ := by
    rcases List.mem_append.mp hψ with hψ | hψ
    · exact h.joined ψ hψ
    · rw [List.mem_singleton.mp hψ]
      exact Or.inl ⟨hmoved, h.others φ hφ⟩
  made j hj := by
    obtain ⟨hop, ψ, hψ, hentries⟩ := h.made j hj
    exact ⟨hop, ψ, List.mem_append_left _ hψ, hentries⟩
  ids := h.ids
  titles := h.titles
  plain := h.plain
  names := by
    rw [h.names, List.filter_append, List.filter_cons_of_neg (by simp [hmoved]), List.filter_nil,
      List.append_nil]

theorem map_setEntries_of_ne {d : InstrId} {es : List (Value × BlockRef)}
    (h : ∀ j ∈ new, j.id ≠ d) :
    new.map (Instr.setEntries d es) = new := by
  have hself : ∀ j ∈ new, Instr.setEntries d es j = j := fun j hj => if_neg (h j hj)
  rw [List.map_congr_left hself, List.map_id']

theorem Joins.exists_made (h : Joins f outs φs σ new) {j : Instr} (hj : j ∈ new) :
    ∃ n, n < new.length ∧ j.id = f.made n := by
  have hid : j.id ∈ (List.range new.length).map f.made := h.ids ▸ List.mem_map_of_mem hj
  obtain ⟨n, hn, he⟩ := List.mem_map.mp hid
  exact ⟨n, List.mem_range.mp hn, he.symm⟩

theorem Joins.mergeEntries (hblocks : ∀ k ∈ f.blocks, k.id ≤ f.maxBlock) (h : Joins f outs φs σ new)
    (hφ : φ.id ∉ φs.map Instr.id) (hold : ∀ n, f.made n ≠ φ.id) :
    ∃ σ' new', (f.expand l σ new).mergeEntries f.fresh outs φ = f.expand l σ' new' ∧
      Joins f outs (φs ++ [φ]) σ' new' := by
  have hset : ∀ v more, (∀ j ∈ new ++ more, ∃ n, j.id = f.made n) →
      (f.expand l σ (new ++ more)).setEntries φ.id (φ.kept outs ++ [(v, f.ref f.fresh)]) =
        f.expand l (Instr.setEntries φ.id (φ.kept outs ++ [(v, f.ref f.fresh)]) ∘ σ)
          (new ++ more) := by
    intro v more hids
    rw [setEntries_expand, map_setEntries_of_ne]
    intro j hj
    obtain ⟨n, hn⟩ := hids j hj
    exact hn ▸ hold n
  rw [Func.mergeEntries]
  split
  · next hmoved => exact ⟨σ, new, rfl, h.skip hφ hmoved⟩
  · next e hmoved =>
    have hone : (φ.moved outs).length = 1 := congrArg List.length hmoved
    refine ⟨_, new ++ [], ?_,
      h.set hφ e.1 [] (Or.inl ⟨e.2, hmoved⟩) (by simp) (by simpa using h.ids) (by simp)
        (by simp [hone])⟩
    have hids : ∀ j ∈ new ++ [], ∃ n, j.id = f.made n := by
      intro j hj
      obtain ⟨n, _, hn⟩ := h.exists_made (by simpa using hj)
      exact ⟨n, hn⟩
    rw [← hset e.1 [] hids, List.append_nil]
    rfl
  · next hnil hone =>
    have hjoin : 2 ≤ (φ.moved outs).length := by
      match hmoved : φ.moved outs with
      | [] => exact absurd hmoved hnil
      | [e] => exact absurd hmoved (hone e)
      | _ :: _ :: _ => exact Nat.le_add_left 2 _
    let j : Instr :=
      { op := .phi, name := φ.name ++ ".ph", ty := φ.ty, operands := (φ.moved outs).map Prod.fst,
                       incoming := (φ.moved outs).map Prod.snd, id := f.made new.length }
    have hids : (new ++ [j]).map Instr.id = (List.range (new ++ [j]).length).map f.made := by
      simp [List.range_succ, h.ids, j]
    refine ⟨_, new ++ [j], ?_,
      h.set hφ (.instr j.id) [j] ?_ ?_ hids (by simp [j]) (if_pos hjoin).symm⟩
    · have hmade : ∀ x ∈ new ++ [j], ∃ n, x.id = f.made n := by
        intro x hx
        rcases List.mem_append.mp hx with hx | hx
        · obtain ⟨n, _, hn⟩ := h.exists_made hx
          exact ⟨n, hn⟩
        · rw [List.mem_singleton.mp hx]
          exact ⟨new.length, rfl⟩
      rw [← hset (.instr j.id) [j] hmade, emit_expand hblocks]
      rfl
    · exact Or.inr ⟨j, by simp, rfl, (List.zip_of_prod rfl rfl).symm⟩
    · intro x hx
      rw [List.mem_singleton.mp hx]
      exact ⟨rfl, rfl, rfl⟩

theorem Joins.foldl_mergeEntries (hblocks : ∀ k ∈ f.blocks, k.id ≤ f.maxBlock) (ψs : List Instr)
    (h : Joins f outs φs σ new) (hn : ((φs ++ ψs).map Instr.id).Nodup)
    (hold : ∀ ψ ∈ ψs, ∀ n, f.made n ≠ ψ.id) :
    ∃ σ' new', ψs.foldl (Func.mergeEntries f.fresh outs) (f.expand l σ new) = f.expand l σ' new' ∧
      Joins f outs (φs ++ ψs) σ' new' := by
  induction ψs generalizing φs σ new with
  | nil => exact ⟨σ, new, rfl, by rwa [List.append_nil]⟩
  | cons ψ ψs ih =>
    have hψ : ψ.id ∉ φs.map Instr.id := by
      rw [List.map_append, List.nodup_append] at hn
      exact fun hin => hn.2.2 _ hin _ (by simp) rfl
    obtain ⟨σ₁, new₁, hstep, hjoins⟩ := h.mergeEntries hblocks hψ (hold ψ List.mem_cons_self)
    rw [List.foldl_cons, hstep]
    rw [List.append_cons] at hn ⊢
    exact ih hjoins hn fun χ hχ => hold χ (List.mem_cons_of_mem _ hχ)

/-- The branch at the end of the new block. -/
def entrance (f : Func) (l : Loop) (n : Nat) : Instr :=
  { op := .br, targets := [l.header], id := f.made n }

/-- A preheader is a new block with the phis that are needed and a branch to the header. -/
theorem withPreheader_eq (hblocks : ∀ k ∈ f.blocks, k.id ≤ f.maxBlock)
    (hn : ((f.phis l.header.number).map Instr.id).Nodup)
    (hold : ∀ φ ∈ f.phis l.header.number, ∀ n, f.made n ≠ φ.id) :
    ∃ σ new, f.withPreheader l = f.expand l σ (new ++ [f.entrance l new.length]) ∧
      Joins f ((f.entering l).map f.ref) (f.phis l.header.number) σ new := by
  obtain ⟨σ, new, hfold, hjoins⟩ :=
    (joins_nil (f := f)).foldl_mergeEntries (l := l) hblocks (f.phis l.header.number) hn hold
  refine ⟨σ, new, ?_, hjoins⟩
  rw [expand_self] at hfold
  have hwith :
      f.withPreheader l = (f.expand l σ new).emit f.fresh { op := .br, targets := [l.header] } :=
    congrArg (fun g : Func => g.emit f.fresh { op := .br, targets := [l.header] }) hfold
  rw [hwith, emit_expand hblocks]
  rfl

end Func

end KernelIR
