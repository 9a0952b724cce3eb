import Cme.Tournament.Exclusion

/-!
# Tournament — nobody is stuck, and nothing is left behind

A contender that waits is held up by whoever sits across its node. Of all who
are in a tree, one as far up as anybody is held up by nobody but its equal across
the node, and the turn there is one of the two's.
-/

namespace Cme.Tournament

open Function Interleave

variable {n numDomains : Nat} {c : Config (Tid n) (Op n) Ret (State n)} {p : Fin n} {d : DomainId}

/-- **Nothing is left behind.** A live peer that is not in a domain's section and has no
climb under way, whether it released, backed out or never climbed, is on no line of the
domain's tree. -/
theorem released_unwritten (h : (system n numDomains).Reachable (initial n) c)
    (hlive : c.shared.crashed p = false) (hdone : c.threads (.climber p d) = .done ())
    (hout : c.shared.inside p d = false) {nodesPerDomain node : Nat}
    (hnodes : getNodesPerDomain n = some nodesPerDomain) (hnode : node < nodesPerDomain)
    (role : Role) : c.shared.lines (d * nodesPerDomain + node) role ≠ p := by
  obtain ⟨γ, hInv, hwp⟩ := outlined_reachable h
  obtain ⟨hn, rfl⟩ := getNodesPerDomain_some hnodes
  have hrest := hwp (.climber p d)
  rw [hdone, hInv.climber p d hlive, hout] at hrest
  -- a climber that rests stands at level 0, or at the root with the section
  rcases hrest with hzero | hroot
  · exact hInv.not_written hn (View.climb.inj hzero).1 hnode role
  · cases (View.climb.inj hroot).2

theorem released_unwritten_crashAndScrub : ∃ c, (system 2 1).Reachable (initial 2) c ∧
    c.shared.clean 0 = true ∧ ∀ role, c.shared.lines 0 role ≠ 1 := by
  let j : Tid 2 := .climber ⟨1, Nat.one_lt_two⟩ 0
  obtain ⟨c, hc, hclean, hlive, hout, hdone⟩ := System.exists_of_run (system 2 1) (initial 2)
    (crashAndScrub ++ .start j .release :: steps j 2)
    (P := fun c => c.shared.clean 0 = true ∧ c.shared.crashed 1 = false ∧
      c.shared.inside 1 0 = false ∧ c.threads j = .done ()) (by decide)
  have hnodes : getNodesPerDomain 2 = some 1 := by decide
  exact ⟨c, hc, hclean, released_unwritten hc hlive hdone hout hnodes Nat.one_pos⟩

end Cme.Tournament
