import Cme.Daemon.Tally
import Cme.Registry.Consistency
import Cme.Registry.Names

/-!
# Daemon — names, from the daemon's value to the region's field

The daemon holds a name as the field it fills; the region's record holds it the
same way, and both read a field up to its first NUL. Neither check refuses a name
with a NUL inside it: such a name is a value of its own that reads as another
(`embedded_nul_splits_name`). Names are one value everywhere exactly when those
accepted hold no NUL (`names_are_one_value`).
-/

namespace Cme.Daemon

open Interleave

variable {T : Type} [DecidableEq T]

theorem NulFree.not_mem {x : Text} (hx : NulFree x) : Registry.nul ∉ x :=
  fun hmem => hx _ hmem rfl

theorem make_eq_iff {x y : Text} {n m : DomainName} (hx : NulFree x) (hy : NulFree y)
    (hn : DomainName.make x = some n) (hm : DomainName.make y = some m) :
    n = m ↔ n.getText = m.getText := by
  refine ⟨congrArg _, fun h => ?_⟩
  have hxy : x = y := by
    rw [← getText_make hx hn, ← getText_make hy hm, h]
  subst hxy
  exact Option.some.inj (hn.symm.trans hm)

/-- What a name reads as holds no NUL. -/
theorem nulFree_getText (n : DomainName) : NulFree n.getText := fun _ hc =>
  of_decide_eq_true (List.mem_takeWhile_imp (p := (· ≠ Char.ofNat 0)) hc)

/-- The daemon's rule for a name is the region's. -/
theorem make_isSome_iff (x : Text) : (DomainName.make x).isSome ↔ Registry.isUsableName x = true := by
  have hwidth : Registry.maxNameLen = fieldWidth := rfl
  rw [DomainName.make, Registry.isUsableName, hwidth]
  split
  · next h =>
    rcases h with h | h
    · simp [h]
    · simp [Nat.not_lt.mpr h]
  · next h =>
    rw [not_or] at h
    simp [h.1, Nat.lt_of_not_le h.2]

/-- A name reads back as it was made, two names are one value exactly when they read
alike, and what a create returned for a name is what a lookup of that name finds and
what the listing shows under it, whoever asks. -/
structure OneValue (T : Type) [DecidableEq T] (names : Text → Prop) : Prop where
  reads : ∀ x n, names x → DomainName.make x = some n → n.getText = x
  equal : ∀ x y n m, names x → names y → DomainName.make x = some n → DomainName.make y = some m →
    (n = m ↔ n.getText = m.getText)
  created : ∀ x, names x → ∀ (dims : Registry.Dims) (rough : Bool) (i j : Registry.Tid T)
    (s s' : Registry.State T) (h : Registry.DomainHandle),
    (Registry.system dims rough).Alone i (Registry.peerCreateDomain dims i.1 x) s (.ok h) s' →
    s'.crashed j.1 = false →
    settles (Registry.system dims rough) j (Registry.findDataDomainByName dims x)
      (fun found _ => found = some h) s' ∧
    settles (Registry.system dims rough) j (Registry.getDomainEntries dims)
      (fun entries _ => (∀ e ∈ entries, e.handle.id = h.id ↔ e = ⟨x, h⟩) ∧
        ⟨x, h⟩ ∈ entries) s'

/-- **Names are one value everywhere** exactly when no accepted one of them holds a
NUL. -/
theorem names_are_one_value (names : Text → Prop) : OneValue T names ↔
    ∀ x, names x → (DomainName.make x).isSome → NulFree x := by
  constructor
  · intro h x hx hmake
    obtain ⟨n, hn⟩ := Option.isSome_iff_exists.mp hmake
    rw [← h.reads x n hx hn]
    exact nulFree_getText n
  · intro h
    have hfree : ∀ {x n}, names x → DomainName.make x = some n → NulFree x :=
      fun hx hn => h _ hx (hn ▸ rfl)
    refine ⟨fun x n hx hn => getText_make (hfree hx hn) hn,
      fun x y n m hx hy hn hm => make_eq_iff (hfree hx hn) (hfree hy hm) hn hm, ?_⟩
    intro x hx dims rough i j s s' handle hrun hlive
    -- what a create accepts the daemon accepts too
    obtain ⟨husable, hcreated⟩ := hrun.of_solo Registry.solo_peerCreateDomain handle rfl
    have hnul := (h x hx ((make_isSome_iff x).mpr husable)).not_mem
    constructor
    · refine settles_mono (Registry.settles_findDataDomainByName hcreated hnul hlive) ?_
      exact fun found _ hf => hf.1
    · refine settles_mono (Registry.settles_getDomainEntries hcreated hnul hlive) ?_
      exact fun entries _ he => ⟨he.1, he.2.1⟩

/-- The text `a`, a NUL, `b` makes a name that reads as `a` and is not the name `a`.
A create of it succeeds; a lookup of it then finds nothing, and the listing shows
`a` in its place. -/
theorem embedded_nul_splits_name :
    (∃ n m, DomainName.make ['a', Registry.nul, 'b'] = some n ∧ DomainName.make ['a'] = some m ∧
      n.getText = ['a'] ∧ m.getText = ['a'] ∧ n ≠ m) ∧
    ∃ s' s₁ s₂ : Registry.State Bool,
      (Registry.system Registry.twoPeersDims false).Alone (0, false)
        (Registry.peerCreateDomain Registry.twoPeersDims 0 ['a', Registry.nul, 'b'])
        Registry.twoPeers (.ok ⟨1, 1⟩) s' ∧
      (Registry.system Registry.twoPeersDims false).Alone (0, false)
        (Registry.findDataDomainByName Registry.twoPeersDims ['a', Registry.nul, 'b']) s' none s₁ ∧
      (Registry.system Registry.twoPeersDims false).Alone (0, false)
        (Registry.getDomainEntries Registry.twoPeersDims) s' [⟨['a'], 1, 1⟩] s₂ := by
  refine ⟨⟨_, _, rfl, rfl, by decide, by decide, by decide⟩, ?_⟩
  have hplay : ((Registry.system Registry.twoPeersDims false).play ((0, false) : Registry.Tid Bool)
      (Registry.peerCreateDomain Registry.twoPeersDims 0 ['a', Registry.nul, 'b'])
      (List.replicate 12 (.flag true)) Registry.twoPeers).any (fun r =>
        r.1.toOption == some ⟨1, 1⟩ &&
        ((Registry.system Registry.twoPeersDims false).play ((0, false) : Registry.Tid Bool)
          (Registry.findDataDomainByName Registry.twoPeersDims ['a', Registry.nul, 'b'])
          [.any] r.2).any (fun r => r.1 = none) &&
        ((Registry.system Registry.twoPeersDims false).play ((0, false) : Registry.Tid Bool)
          (Registry.getDomainEntries Registry.twoPeersDims) [.any] r.2).any
            (fun r => r.1 = [⟨['a'], 1, 1⟩])) = true := by
    decide +kernel
  obtain ⟨r, s', hrun, htest⟩ := System.exists_alone_of_play hplay
  obtain ⟨hfirst, hlist⟩ := Bool.and_eq_true_iff.mp htest
  obtain ⟨hr, hfind⟩ := Bool.and_eq_true_iff.mp hfirst
  obtain ⟨found, s₁, hfound, hnone⟩ := System.exists_alone_of_play hfind
  obtain ⟨entries, s₂, hlisted, hentries⟩ := System.exists_alone_of_play hlist
  obtain rfl := of_decide_eq_true hnone
  obtain rfl := of_decide_eq_true hentries
  cases r with
  | error e => cases hr
  | ok h =>
    obtain rfl : h = ⟨1, 1⟩ := Option.some.inj (eq_of_beq hr)
    exact ⟨s', s₁, s₂, hrun, hfound, hlisted⟩

end Cme.Daemon
