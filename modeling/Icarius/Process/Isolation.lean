/-
  Icarius.Process.Isolation

  What the ledger of a run says: user processes are isolated from each other and
  from the kernel, and the frame bitmap is in balance.
-/

import Icarius.Process.Spawn

namespace Icarius.Machine

open Icarius.Lib

variable {s s' : Machine} {l : Ledger}

/-! ## Isolation -/

/-- The frame `f` is reachable through a user entry of `p`. -/
def userFrame (s : Machine) (p f : Nat) : Prop :=
  ∃ i < 1024, entryUser (s.procDir p i) = true ∧ entryFrame (s.procDir p i) = f

/-- The frame `f` is a page of the kernel heap. -/
def heapFrame (s : Machine) (f : Nat) : Prop :=
  Maps s.kernel.kernelDirectory s.kernel.heapIndex f

/-- The user processes are isolated from each other and from the kernel. -/
structure Isolated (s : Machine) : Prop where
  lower : ∀ p ∈ s.users, ∀ i < 1024, entryUser (s.procDir p i) = true → i < 768
  apart : ∀ p ∈ s.users, ∀ q ∈ s.users, p ≠ q → ∀ f, s.userFrame p f → ¬ s.userFrame q f
  kernel : ∀ p ∈ s.users, ∀ f, s.userFrame p f → ¬ kernelFrame f
  framebuffer : ∀ p ∈ s.users, ∀ f, s.userFrame p f → ¬ framebufferFrame f
  heap : ∀ p ∈ s.users, ∀ f, s.userFrame p f → ¬ s.heapFrame f
  dirs : ∀ p ∈ s.users, ∀ q ∈ s.users, ∀ f, s.userFrame p f → f ≠ spaceFrame (s.dirOf q)

/-- A frame behind a user entry is a page of that process. -/
theorem Inv.userFrame_owner {p f : Nat} (h : s.Inv l) (hp : p ∈ s.users)
    (hf : s.userFrame p f) : l f = .page p := by
  have hspace := h.accounts.space p hp
  obtain ⟨i, -, huser, hframe⟩ := hf
  have hlow : i < 768 := by
    by_contra hge
    have hupper := hspace.upper i (by omega)
    rw [show s.kernel.dirAt (s.dirOf p) i = s.procDir p i from rfl, huser] at hupper
    cases hupper
  rcases hspace.pages.entry i hlow with hzero | ⟨g, hlt, hg, hentry⟩
  · rw [show s.procDir p i = 0 from hzero] at huser
    cases huser
  · rw [show s.procDir p i = _ from hentry, entryFrame_frameEntry hlt] at hframe
    exact hframe ▸ hg

/-- User memory isolation. -/
theorem isolated_of_runs {s₀ : Machine} {es : List Event} (hboot : s₀.Boot)
    (hfree : FreeBelow s₀.kernel.pfa) (hrun : Runs Machine.step staysBelow s₀ es s) :
    s.Isolated := by
  obtain ⟨l, h⟩ := hboot.run hfree hrun
  have howner := fun p hp f => h.inv.userFrame_owner (p := p) (f := f) hp
  have hused : ∀ p ∈ s.users, ∀ f, s.userFrame p f → pfaTest s₀.kernel.pfa f ≠ true := by
    intro p hp f hf hused
    have hpage := howner p hp f hf
    have hlt := h.inv.accounts.lt (f := f) (by rw [hpage]; exact Owner.noConfusion)
    have hboot' := (h.boot f).mpr ((bootLedger_boot_iff hlt).mpr hused)
    rw [hpage] at hboot'
    cases hboot'
  refine ⟨fun p hp i _ huser => ?_, fun p hp q hq hne f hf hf' => ?_, fun p hp f hf hk => ?_,
    fun p hp f hf hk => ?_, fun p hp f hf hheap => ?_, fun p hp q hq f hf heq => ?_⟩
  · by_contra hge
    have hupper := (h.inv.accounts.space p hp).upper i (by omega)
    rw [show s.kernel.dirAt (s.dirOf p) i = s.procDir p i from rfl, huser] at hupper
    cases hupper
  · have hpage := howner p hp f hf
    rw [howner q hq f hf', Owner.page.injEq] at hpage
    exact hne hpage.symm
  · exact hused p hp f hf (hboot.kernel_used f hk)
  · exact hused p hp f hf (hboot.framebuffer_used f hk)
  · have hpage := howner p hp f hf
    rw [(h.inv.accounts.heap.maps_iff f).mp hheap] at hpage
    cases hpage
  · have hpage := howner p hp f hf
    rw [((h.inv.accounts.space q hq).dir f).mpr heq] at hpage
    cases hpage

/-- Two processes after boot, and one of them when the other has exited. -/
theorem isolated_exit : ∃ t u, Runs step staysBelow coldMachine
      [.spawn coldProgram, .spawn coldProgram] t ∧ t.users = [secondProcess, firstProcess] ∧
      t.Isolated ∧ Runs step staysBelow coldMachine
      [.spawn coldProgram, .spawn coldProgram, .exit firstProcess] u ∧
      u.users = [secondProcess] ∧ u.Isolated := by
  obtain ⟨_, _, _, t, u, -, hcold⟩ := coldMachine_exit
  have hrun := hcold.run.snoc hcold.staysBelow hcold.exit
  exact ⟨t, u, hcold.run, hcold.users,
    isolated_of_runs coldMachine_boot coldMachine_free hcold.run, hrun, hcold.left,
    isolated_of_runs coldMachine_boot coldMachine_free hrun⟩

/-! ## Balance -/

/-- The frames of a process: its directory, and what its lower half maps. -/
def ownsFrame (s : Machine) (p f : Nat) : Prop :=
  f = spaceFrame (s.dirOf p) ∨ Maps (s.procDir p) (· < 768) f

theorem Inv.ownsFrame_iff {p f : Nat} (h : s.Inv l) (hp : p ∈ s.users) :
    s.ownsFrame p f ↔ l f = .dir p ∨ l f = .page p := by
  have hspace := h.accounts.space p hp
  rw [ownsFrame, ← hspace.dir f, ← hspace.pages.maps_iff f]
  rfl

/-- The used frames, by owner. -/
theorem Inv.used_iff {f : Nat} (h : s.Inv l) (hf : f < maxFrames) :
    pfaTest s.kernel.pfa f = true ↔
      l f = .boot ∨ s.heapFrame f ∨ ∃ p ∈ s.users, s.ownsFrame p f := by
  have hheap : s.heapFrame f ↔ l f = .heap := h.accounts.heap.maps_iff f
  have howns : (∃ p ∈ s.users, s.ownsFrame p f) ↔ ∃ p, l f = .dir p ∨ l f = .page p := by
    constructor
    · rintro ⟨p, hp, hown⟩
      exact ⟨p, (h.ownsFrame_iff hp).mp hown⟩
    · rintro ⟨p, hown⟩
      have hp := h.accounts.owner f p hown
      exact ⟨p, hp, (h.ownsFrame_iff hp).mpr hown⟩
  rw [h.accounts.bitmap f hf, hheap, howns]
  cases l f <;> simp

/-- What the bitmap says in the states of a run, after an exit, and after a spawn
    followed by its exit. -/
structure Balanced (pfa₀ : Pfa) (s : Machine) : Prop where
  used : ∀ f < maxFrames, pfaTest s.kernel.pfa f = true ↔
    pfaTest pfa₀ f = true ∨ s.heapFrame f ∨ ∃ p ∈ s.users, s.ownsFrame p f
  exit : ∀ p s', s.step (.exit p) = some s' → ∀ f < maxFrames,
    pfaTest s'.kernel.pfa f = true ↔ pfaTest s.kernel.pfa f = true ∧ ¬ s.ownsFrame p f
  spawn_exit : ∀ file p s₁ s₂, s.staysBelow (.spawn file) → s.step (.spawn file) = some s₁ →
    s₁.users = p :: s.users → s₁.step (.exit p) = some s₂ → ∀ f < maxFrames,
      pfaTest s₂.kernel.pfa f = true ↔ pfaTest s.kernel.pfa f = true ∨ s₂.heapFrame f

/-- The process a spawn made is not one of the others. -/
theorem Inv.exit_bitmap {p f : Nat} (h : s.Inv l) (hf : f < maxFrames)
    (hstep : s.step (.exit p) = some s') :
    pfaTest s'.kernel.pfa f = true ↔ pfaTest s.kernel.pfa f = true ∧ ¬ s.ownsFrame p f := by
  obtain ⟨hp, hinv, -⟩ := h.exit hstep
  rw [hinv.accounts.bitmap f hf, h.accounts.bitmap f hf, h.ownsFrame_iff hp, Ledger.release]
  split
  · rename_i hown
    exact ⟨fun hne => absurd rfl hne, fun hall => absurd hown hall.2⟩
  · rename_i hown
    exact ⟨fun hne => ⟨hne, hown⟩, fun hall => hall.1⟩

/-- Frame accounting. -/
theorem balanced_of_runs {s₀ : Machine} {es : List Event} (hboot : s₀.Boot)
    (hfree : FreeBelow s₀.kernel.pfa) (hrun : Runs Machine.step staysBelow s₀ es s) :
    Balanced s₀.kernel.pfa s := by
  obtain ⟨l, h⟩ := hboot.run hfree hrun
  refine ⟨fun f hf => ?_, fun p s' hstep f hf => h.inv.exit_bitmap hf hstep,
    fun file p s₁ s₂ hbelow hspawn hnew hexit f hf => ?_⟩
  · rw [h.inv.used_iff hf, h.boot f, bootLedger_boot_iff hf]
  · obtain ⟨q, s₁', -, -, -, husers, -, -, l₁, htook, hinv₁⟩ :=
      h.inv.spawn (h.dirFrameOk hfree) hbelow hspawn
    obtain ⟨-, hinv₂, -⟩ := hinv₁.exit hexit
    have hqp : q = p := by
      rw [husers] at hnew
      split at hnew
      · exact absurd hnew.symm (List.cons_ne_self _ _)
      · exact (List.cons.inj hnew).1
    subst hqp
    have hfresh : q ∉ s.users := by
      have hnodup := hinv₁.nodup
      rw [hnew] at hnodup
      exact (List.nodup_cons.mp hnodup).1
    have hnone : ¬ (l f = .dir q ∨ l f = .page q) := fun hown => hfresh (h.inv.accounts.owner f q hown)
    have hheap : s₂.heapFrame f ↔ l₁.release q f = .heap := hinv₂.accounts.heap.maps_iff f
    rw [hinv₂.accounts.bitmap f hf, h.inv.accounts.bitmap f hf, hheap]
    rcases htook f with heq | ⟨hlf, hnew'⟩
    · -- not taken by the spawn
      rw [Ledger.release, heq, if_neg hnone]
      exact ⟨.inl, fun hor => hor.elim id fun hh => by rw [hh]; exact Owner.noConfusion⟩
    · rw [hlf]
      unfold Ledger.release
      rcases hnew' with hown | hown | hown <;> rw [hown] <;> simp

/-- The bitmap with two processes, and after the exit of one of them. -/
theorem balanced_exit : ∃ t u, Runs step staysBelow coldMachine
      [.spawn coldProgram, .spawn coldProgram] t ∧ t.users = [secondProcess, firstProcess] ∧
      Balanced coldMachine.kernel.pfa t ∧ Runs step staysBelow coldMachine
      [.spawn coldProgram, .spawn coldProgram, .exit firstProcess] u ∧
      u.users = [secondProcess] ∧ Balanced coldMachine.kernel.pfa u := by
  obtain ⟨_, _, _, t, u, -, hcold⟩ := coldMachine_exit
  have hrun := hcold.run.snoc hcold.staysBelow hcold.exit
  exact ⟨t, u, hcold.run, hcold.users,
    balanced_of_runs coldMachine_boot coldMachine_free hcold.run, hrun, hcold.left,
    balanced_of_runs coldMachine_boot coldMachine_free hrun⟩

end Icarius.Machine
