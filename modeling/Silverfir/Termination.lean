import Silverfir.Metering
import Silverfir.Progress

/-! Programs without loops. Every run of them comes to an end, with results or with a trap. -/
namespace Silverfir

open InPlaceDt
open Relation (ReflTransGen)

def Instr.isLoop : Instr → Bool
  | .block .loop _ => true
  | _ => false

/-- No body has a loop in it. -/
def Module.Loopless (mod : Module) : Prop := ∀ fn ∈ mod.funcs, ∀ l ∈ instrs mod fn.code, l.instr.isLoop = false

instance (mod : Module) : Decidable mod.Loopless :=
  inferInstanceAs (Decidable (∀ fn ∈ mod.funcs, ∀ l ∈ instrs mod fn.code, l.instr.isLoop = false))

/-- The passes from `s` on get to no instruction whose operands the interpreter does not check, and call only functions
with bodies. -/
def System.Unimpeded (pf : Platform) (s : System) : Prop :=
  ∀ s', ReflTransGen (System.Pass pf) s s' → ¬ s'.Hazard pf ∧ ∀ s'', s'.Pass pf s'' → EntersDefined s' s''

section Runs
variable {pf : Platform} {mods : Module → Prop} {s s' : System}

theorem Module.Loopless.not_loopBody {mod : Module} (h : mod.Loopless) {fn : Func} (hfn : fn ∈ mod.funcs) (pc : ℤ) :
    ¬ LoopBody mod fn.code pc := by
  rintro ⟨l, hl, ⟨ty, hty⟩, -⟩
  have hloop := h fn hfn l hl
  rw [hty] at hloop
  cases hloop

theorem Module.Runnable.jumps {mod : Module} (h : mod.Runnable) : mod.Given JumpSafe :=
  ⟨h.given.loaded, fun fn hfn himp => (h.given.bodies fn hfn himp).heights.jumps⟩

theorem passes_mods (h : ReflTransGen (System.Pass pf) s s') : s'.vm.mods = s.vm.mods := by
  induction h with
  | refl => rfl
  | tail _ hpass ih => rw [hpass.mods_eq, ih]

/-- Without loops there is no way back. -/
theorem Loopless.forth (hmods : ∀ mod, mods mod → mod.Given JumpSafe) (h : ReflTransGen (SysStep pf mods) {} s)
    (hloops : ∀ mod ∈ s.vm.mods, mod.Loopless) (hpass : s.Pass pf s') : ¬ GoesBack s s' := by
  intro hback
  obtain ⟨fr, rest, mi, fn, -, hmi, hidx, hloop⟩ := pass_loopBody hmods h hpass hback
  have hmod : mi.mod ∈ s.vm.mods := List.mem_map_of_mem (List.mem_of_getElem? hmi)
  exact (hloops mi.mod hmod).not_loopBody (List.mem_of_getElem? hidx) _ hloop

theorem passes_progress (h : ReflTransGen (ProgressStep pf) {} s) (hg : s.Unimpeded pf)
    (hpasses : ReflTransGen (System.Pass pf) s s') : ReflTransGen (ProgressStep pf) {} s' := by
  induction hpasses with
  | refl => exact h
  | tail hpasses hpass ih => exact ih.tail ⟨hpass.sysStep, (hg _ hpasses).2 _ hpass⟩

/-- A run that has not ended goes on. -/
theorem marked_or_ended (hpf : pf.Total) (h : ReflTransGen (ProgressStep pf) {} s)
    (hloops : ∀ mod ∈ s.vm.mods, mod.Loopless) (hg : s.Unimpeded pf) (n : ℕ) :
    (∃ m ≤ n, ∃ s', Countdown.Marked (System.Pass pf) GoesBack m 0 s s' ∧ s'.running = none) ∨
      ∃ s', Countdown.Marked (System.Pass pf) GoesBack n 0 s s' := by
  induction n with
  | zero => exact .inr ⟨s, .refl⟩
  | succ n ih =>
    obtain ⟨m, hm, hended⟩ | ⟨s', hmarked⟩ := ih
    · exact .inl ⟨m, by omega, hended⟩
    · cases hr : s'.running with
      | none => exact .inl ⟨n, by omega, s', hmarked, hr⟩
      | some r =>
        have hpasses := hmarked.run
        have hprogress := passes_progress h hg hpasses
        obtain ⟨s'', hstep⟩ := runStep_defined hpf hprogress hr (hg s' hpasses).1
        have hpass : s'.Pass pf s'' := ⟨r, hr, hstep⟩
        have hforth := Loopless.forth (fun _ hmod => hmod.jumps)
          (run_of_progress hprogress) (by rw [passes_mods hpasses]; exact hloops) hpass
        exact .inr ⟨s'', hmarked.tail hpass hforth⟩

theorem System.Pass.unique {s1 s2 : System} (h1 : s.Pass pf s1) (h2 : s.Pass pf s2) : s1 = s2 := by
  obtain ⟨r, hr, hstep⟩ := h1
  obtain ⟨r', hr', hstep'⟩ := h2
  obtain rfl : r = r' := Option.some.inj (hr.symm.trans hr')
  exact Except.ok.inj (hstep.symm.trans hstep')

end Runs

/-! ### A start function that returns -/

/-- `localRun` at `pc`. -/
def localAt (pc : ℤ) (stack : List ValueU) : System where
  vm := localRun.vm
  running := some ⟨[⟨⟨0, 0⟩, ⟨⟨pc, 0⟩, stack⟩, [0], 1⟩], { frameDepth := 1, stackSize := 1 }, .start 0⟩

/-- The instance is ready. -/
def localEnd : System where
  vm := localRun.vm.modifyInst 0 ({ · with state := .ready })

/-- The states of the run, with the next instruction of the start function. -/
inductive LocalState : System → Prop
  | get : LocalState (localAt 0 [])
  | drop : LocalState (localAt 2 [0])
  | end_ : LocalState (localAt 3 [])
  | ended : LocalState localEnd

theorem localState_pass {x y : System} (h : System.Pass idle x y) (hx : LocalState x) : LocalState y := by
  cases hx with
  | get =>
    have hpass : (localAt 0 []).Pass idle (localAt 2 [0]) := ⟨_, rfl, rfl⟩
    rw [h.unique hpass]
    exact .drop
  | drop =>
    have hpass : (localAt 2 [0]).Pass idle (localAt 3 []) := ⟨_, rfl, rfl⟩
    rw [h.unique hpass]
    exact .end_
  | end_ =>
    have hpass : (localAt 3 []).Pass idle localEnd := ⟨_, rfl, rfl⟩
    rw [h.unique hpass]
    exact .ended
  | ended =>
    obtain ⟨r, hr, -⟩ := h
    cases hr

theorem localState_frames {x : System} (hx : LocalState x) : x.frames.length ≤ 1 := by
  cases hx <;> decide

theorem localState_checked {x : System} (hx : LocalState x) : ¬ x.Hazard idle := by
  intro hazard
  obtain ⟨fr, i, stack, ⟨r, rest, fn, regs, hr, hframes, hfn, hact⟩, hi⟩ := hazard.unchecked
  have hplain : ∀ {pc : ℤ} {operands : List ValueU} {j : Instr} {a : Act ValueU}, x = localAt pc operands →
      actStep { localCount := 1, localTypes := [.i32], code := [0x20, 0, 0x1a, 0x0b], stackSizeMax := 1 } lo32
        ⟨⟨pc, 0⟩, operands⟩ = .ok (.plain j a) → i = j := by
    rintro pc operands j a rfl hstep
    cases hr
    cases hframes
    cases hfn
    cases hstep.symm.trans hact
    rfl
  cases hx with
  | get =>
    have hget : i = .localGet 0 := hplain (a := ⟨⟨2, 0⟩, []⟩) rfl rfl
    rw [hget] at hi
    exact hi
  | drop =>
    have hdrop : i = .drop := hplain (a := ⟨⟨3, 0⟩, [0]⟩) rfl rfl
    rw [hdrop] at hi
    exact hi
  | end_ =>
    cases hr
    cases hframes
    cases hfn
    have hstep : actStep { localCount := 1, localTypes := [.i32], code := [0x20, 0, 0x1a, 0x0b], stackSizeMax := 1 }
        lo32 ⟨⟨3, 0⟩, []⟩ = .ok (.finish []) := rfl
    cases hstep.symm.trans hact
  | ended => cases hr

theorem unimpeded_localRun : localRun.Unimpeded idle := by
  intro x hpasses
  have hx : LocalState x := Run.invariant (p := LocalState) (fun _ _ h => localState_pass h) hpasses .get
  refine ⟨localState_checked hx, fun y hpass fr rest hframes hle => ?_⟩
  have hlen := localState_frames (localState_pass hpass hx)
  rw [hframes, List.length_cons] at hlen
  obtain ⟨r, hr, hstep⟩ := hpass
  obtain ⟨fr', rest', -, hframes', -⟩ := runStep_moved hstep
  rw [frames_of_running hr, hframes', List.length_cons] at hle
  omega

end Silverfir
