import KernelIR.Proofs.Motion.Completeness

namespace KernelIR

namespace Module

/-- The walk over a loop that starts at its header and turns back at blocks outside, in a function
whose branches lead to its own blocks. The rounds with a stack come to an end and visit the same
blocks in the same order. It comes to every block of the loop once and to no other, and to a block
after all that dominate it. It finds what a walk that never turns back finds of the loop. Hoisting
goes over the blocks of this walk that lie in no inner loop. -/
theorem loop_walk_visits_body (m : Module) (f : Func) (hm : m.func? f.id = some f) (hf : f.Linked) :
    ∃ nest, m.loopNest f (m.domTree f) = .ok nest ∧ ∀ l ∈ nest, ∃ order,
      (m.domTree f).walk l.contains l.header = order ∧
      treeWalk (m.domTree f).children l.contains m.blockCount l.header = order ∧
      (∃ rounds, (walkRound (m.domTree f).children l.contains)^[rounds] ([l.header], []) =
        ([], order)) ∧
      Work.scanOrder m (m.domTree f).children nest l = order.filter (fun b => !nest.inSubloop l b) ∧
      order.Nodup ∧ (∀ b, b ∈ order ↔ b ∈ l.body) ∧
      (∀ a ∈ l.body, ∀ b ∈ l.body, f.StrictlyDominates a b → [a, b].Sublist order) ∧
      order = ((m.domTree f).walk (fun _ => true) l.header).filter l.contains := by
  refine ⟨f.nest, hf.loopNest_eq m, fun l hl => ⟨_, rfl, ?_⟩⟩
  rw [hf.domTree_eq]
  have hnat := hf.isNaturalLoop hl
  have hheader := hnat.reaches hnat.header_mem
  have hcount : f.blocks.length ≤ m.blockCount :=
    length_le_blockCount (List.mem_of_find?_eq_some hm)
  have hdepth : ∀ n, f.blocks.length ≤ n → f.flow.domTree.walk l.contains l.header =
      treeWalk f.flow.domTree.children l.contains n l.header := fun n hn =>
    Func.walk_eq_treeWalk hf hheader hn
  have hwalk := hdepth m.blockCount hcount
  obtain ⟨rounds, hrounds⟩ := exists_walkRounds
    (hwalk.symm.trans (hdepth _ (Nat.le_succ_of_le hcount))) [] []
  have hmem : ∀ b, b ∈ f.flow.domTree.walk l.contains l.header ↔ b ∈ l.body := fun b =>
    hwalk ▸ Work.mem_treeWalk_header hf hl hcount
  refine ⟨hwalk.symm, ⟨rounds, by rw [hrounds, hwalk, List.nil_append]⟩,
    by rw [Work.scanOrder, hwalk], Func.nodup_treeWalk hf hheader, hmem, ?_, ?_⟩
  · intro a ha b hb hab
    exact sublist_of_pairwise (Func.pairwise_treeWalk hf hheader) ((hmem a).mpr ha)
      ((hmem b).mpr hb) hab.1 hab.2
  · -- what stands between the header and a block of the loop is in the loop
    apply Func.walk_eq_filter hf hheader
    intro b d hb hhd hdb
    have hbody : b ∈ l.body := by simpa [Loop.contains] using hb
    simpa [Loop.contains] using hnat.mem_of_between hbody hdb hhd

def threeLevelsModule : Module := { name := "", functions := [threeLevels] }

theorem threeLevels_walk_visits_body : threeLevelsModule.func? 0 = some threeLevels ∧
    threeLevels.Linked ∧
    threeLevelsModule.loopNest threeLevels (threeLevelsModule.domTree threeLevels) =
      .ok threeLevelsNest ∧
    ∀ l ∈ threeLevelsNest, ∃ order,
      (threeLevelsModule.domTree threeLevels).walk l.contains l.header = order ∧
      (∃ rounds, (walkRound (threeLevelsModule.domTree threeLevels).children l.contains)^[rounds]
        ([l.header], []) = ([], order)) ∧ order.Nodup ∧ (∀ b, b ∈ order ↔ b ∈ l.body) ∧
      ∀ a ∈ l.body, ∀ b ∈ l.body, threeLevels.StrictlyDominates a b → [a, b].Sublist order := by
  have hlinked : threeLevels.Linked := ⟨by decide, by decide⟩
  have heq : threeLevelsModule.loopNest threeLevels (threeLevelsModule.domTree threeLevels) =
      .ok threeLevelsNest := by cbv
  refine ⟨rfl, hlinked, heq, fun l hl => ?_⟩
  obtain ⟨nest, hnest, hwalks⟩ := loop_walk_visits_body threeLevelsModule threeLevels rfl hlinked
  rw [heq] at hnest
  cases hnest
  obtain ⟨order, hwalk, _, hrounds, _, hnodup, hmem, habove, _⟩ := hwalks l hl
  exact ⟨order, hwalk, hrounds, hnodup, hmem, habove⟩

end Module

namespace Work

/-- Between the header of a loop and a block of it that stands in another function, the walk can
meet a block outside the loop and turn back. -/
theorem twoForeignHeaders_walk_misses_block : twoForeignHeadersWork.module.Consistent ∧
    twoForeignHeadersWork.module.func? 1 = some twoForeignHeaders ∧
    ∃ nest, twoForeignHeadersWork.module.loopNest twoForeignHeaders
      (twoForeignHeadersWork.module.domTree twoForeignHeaders) = .ok nest ∧
      ∃ l ∈ nest, ∃ b ∈ l.body,
        b ∉ (twoForeignHeadersWork.module.domTree twoForeignHeaders).walk l.contains l.header ∧
        b ∉ treeWalk (twoForeignHeadersWork.module.domTree twoForeignHeaders).children l.contains
          twoForeignHeadersWork.module.blockCount l.header ∧
        b ∈ (twoForeignHeadersWork.module.domTree twoForeignHeaders).walk
          (fun _ => true) l.header := by
  let two : Loop := ⟨⟨0, 2⟩, [⟨0, 2⟩, ⟨1, 4⟩, ⟨1, 2⟩], none, 1⟩
  let three : Loop := ⟨⟨0, 3⟩, [⟨0, 3⟩, ⟨1, 4⟩, ⟨1, 2⟩], none, 1⟩
  have hnest : twoForeignHeadersWork.module.loopNest twoForeignHeaders
      (twoForeignHeadersWork.module.domTree twoForeignHeaders) = .ok [two, three] := by cbv
  have htree : twoForeignHeadersWork.module.domTree twoForeignHeaders =
      ⟨some ⟨1, 1⟩, [(⟨0, 2⟩, ⟨1, 1⟩), (⟨0, 3⟩, ⟨0, 2⟩), (⟨1, 4⟩, ⟨0, 3⟩)]⟩ := by cbv
  refine ⟨by decide, rfl, _, hnest, two, List.mem_cons_self, ⟨1, 4⟩,
    by decide, ?_⟩
  rw [htree]
  decide

end Work

end KernelIR
