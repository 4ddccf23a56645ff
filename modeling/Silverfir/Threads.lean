import Silverfir.Counters
import Silverfir.Sizes

/-! The thread of a VM from call to call: what a call leaves behind, and how deep it can get. -/
namespace Silverfir

open InPlaceDt CallStack
open Relation (ReflTransGen)

/-! ### Nested calls -/

/-- The functions of the active calls, the innermost first. -/
def System.calls (s : System) : List Addr := s.frames.map (·.fAddr)

/-- More than `n` calls are active. -/
def System.Deeper (n : ℕ) (s : System) : Prop := n < s.frames.length

/-- A call made in `s` by an active call has returned in `s'`. -/
def NestedCall (pf : Platform) (mods : Module → Prop) (s s' : System) : Prop :=
  ∃ s1 s2, ThreadStep pf mods s s1 ∧ s1.frames.length = s.frames.length + 1 ∧
    ReflTransGen (Run.Within (ThreadStep pf mods) (System.Deeper s.frames.length)) s1 s2 ∧
    s2.Deeper s.frames.length ∧ ThreadStep pf mods s2 s' ∧ s'.frames.length = s.frames.length

/-- No call is active in the thread of the VM; a start function may run in a thread of its own. -/
def System.Rests (s : System) : Prop := ∀ r, s.running = some r → ∃ k, r.cont = .start k

/-- A step that is not `thread_reset`. -/
def Unreset (pf : Platform) (mods : Module → Prop) (s s' : System) : Prop :=
  ThreadStep pf mods s s' ∧ ¬ (s.running = none ∧ s' = ⟨{ s.vm with thread := {} }, none⟩)

section Nested
variable {pf : Platform} {mods : Module → Prop} {s s' s1 s2 : System}

theorem length_calls (s : System) : s.calls.length = s.frames.length := List.length_map _

theorem Moved.move {vm : Vm} {r : Running} {fr : Frame} {rest : List Frame} {fn : Func}
    (h : Moved pf vm r fr rest fn s) (hframes : r.frames = fr :: rest) (hactive : s.frames ≠ []) :
    Move (r.frames.map (·.fAddr)) s.calls := by
  rw [hframes, List.map_cons]
  cases h with
  | stay _ hadv =>
    simp only [System.calls, System.frames, Option.map_some, Option.getD_some, List.map_cons, hadv.fAddr]
    exact .stay
  | call hadv =>
    simp only [System.calls, System.frames, Option.map_some, Option.getD_some, List.map_cons, hadv.fAddr]
    exact .push
  | ret hrest haddr =>
    subst hrest
    simp only [System.calls, System.frames, Option.map_some, Option.getD_some, List.map_cons, haddr]
    exact .pop
  | abort => exact absurd (frames_abort _ _) hactive
  | finish _ h => exact absurd (frames_finish h) hactive

/-- While a call is running, only the loop makes steps. -/
theorem threadStep_running (h : ThreadStep pf mods s s') {r : Running} (hr : s.running = some r) :
    runStep pf s.vm r = .ok s' := by
  cases h with
  | sys h =>
    cases h with
    | run h =>
      cases hr
      exact h
    | invoke | reset | instantiate => cases hr
  | call | refuse => cases hr

theorem threadStep_move (h : ThreadStep pf mods s s') (hs : s.frames ≠ []) (hs' : s'.frames ≠ []) :
    Move s.calls s'.calls ∧ s'.vm.mods = s.vm.mods := by
  obtain ⟨r, hr⟩ := running_of_active hs
  have hstep := threadStep_running h hr
  obtain ⟨fr, rest, fn, hframes, -, hmoved⟩ := runStep_moved hstep
  refine ⟨?_, Vm.mods_of_shape (runStep_shape hstep)⟩
  rw [System.calls, frames_of_running hr]
  exact hmoved.move hframes hs'

theorem deeper_active {n : ℕ} (h : s.Deeper n) : s.frames ≠ [] := List.ne_nil_of_length_pos (Nat.zero_lt_of_lt h)

/-- The steps of a nested call that has not returned, as moves of the stack of calls. -/
theorem moves_of_deeper {n : ℕ} (h : ReflTransGen (Run.Within (ThreadStep pf mods) (System.Deeper n)) s1 s2)
    (h2 : s2.Deeper n) :
    ReflTransGen (Run.Within Move (Above n)) s1.calls s2.calls ∧ s2.vm.mods = s1.vm.mods := by
  induction h with
  | refl => exact ⟨.refl, rfl⟩
  | @tail y z _ hstep ih =>
    obtain ⟨hmoves, hmods⟩ := ih hstep.1
    obtain ⟨hmove, hmods'⟩ := threadStep_move hstep.2 (deeper_active hstep.1) (deeper_active h2)
    refine ⟨hmoves.tail ⟨?_, hmove⟩, hmods'.trans hmods⟩
    rw [Above, length_calls]
    exact hstep.1

/-- The active calls are those from before. -/
theorem NestedCall.calls_eq (h : NestedCall pf mods s s') (hs : s.frames ≠ []) :
    s'.calls = s.calls ∧ s'.vm.mods = s.vm.mods := by
  obtain ⟨s1, s2, hcall, hlen, hrun, hdeep, hret, hlen'⟩ := h
  have hs1 : s1.Deeper s.frames.length := by
    rw [System.Deeper, hlen]
    exact Nat.lt_succ_self _
  have hs' : s'.frames ≠ [] := by
    refine List.ne_nil_of_length_pos ?_
    rw [hlen']
    exact List.length_pos_iff.mpr hs
  obtain ⟨hpush, hmods1⟩ := threadStep_move hcall hs (deeper_active hs1)
  obtain ⟨hmoves, hmods2⟩ := moves_of_deeper hrun hdeep
  obtain ⟨hpop, hmods3⟩ := threadStep_move hret (deeper_active hdeep) hs'
  obtain ⟨k, hk⟩ := hpush.exists_push (by rw [length_calls, length_calls, hlen])
  rw [hk, ← length_calls] at hmoves
  refine ⟨eq_of_returned hmoves hpop ?_ ?_, hmods3.trans (hmods2.trans hmods1)⟩
  · rw [length_calls, length_calls, hlen']
  · rw [Above, length_calls, length_calls]
    exact hdeep

/-- Equal calls have equal counters. -/
theorem counts_of_calls {r r' : Running} (hc : r.thread.Counts s.vm r.frames) (hc' : r'.thread.Counts s'.vm r'.frames)
    (hcalls : r'.frames.map (·.fAddr) = r.frames.map (·.fAddr)) (hmods : s'.vm.mods = s.vm.mods) :
    r'.thread.frameDepth = r.thread.frameDepth ∧ r'.thread.stackSize = r.thread.stackSize := by
  have hsame := (hc.congr hcalls).of_mods hmods
  exact ⟨hc'.depth.trans hsame.depth.symm, hc'.size.trans hsame.size.symm⟩

end Nested

/-! ### Between calls -/

section Rest
variable {pf : Platform} {s s' : System}

theorem run_counted (h : ReflTransGen (ThreadStep pf Module.U32Sizes) {} s) : s.Counted :=
  Run.invariant (p := System.Counted) (fun _ _ hstep => threadStep_counted hstep) h counted_empty

theorem within_counted {p : System → Prop} (h : ReflTransGen (Run.Within (ThreadStep pf Module.U32Sizes) p) s s')
    (hc : s.Counted) : s'.Counted :=
  Run.invariant (p := System.Counted) (fun _ _ hstep => threadStep_counted hstep.2) h hc

theorem NestedCall.restores (h : NestedCall pf Module.U32Sizes s s') (hc : s.Counted) {r r' : Running}
    (hr : s.running = some r) (hr' : s'.running = some r') :
    r'.thread.frameDepth = r.thread.frameDepth ∧ r'.thread.stackSize = r.thread.stackSize := by
  have hactive : s.frames ≠ [] := by
    obtain ⟨s1, s2, hcall, -⟩ := h
    obtain ⟨fr, rest, fn, hframes, -⟩ := runStep_moved (threadStep_running hcall hr)
    rw [frames_of_running hr, hframes]
    exact List.cons_ne_nil _ _
  obtain ⟨hcalls, hmods⟩ := h.calls_eq hactive
  rw [System.calls, System.calls, frames_of_running hr, frames_of_running hr'] at hcalls
  obtain ⟨s1, s2, hcall, -, hrun, -, hret, -⟩ := h
  have hc' := threadStep_counted hret (within_counted hrun (threadStep_counted hcall hc))
  exact counts_of_calls (hc.running r hr).2.1 (hc'.running r' hr').2.1 hcalls hmods

/-- A start function does not touch the thread of the VM. -/
theorem Passed.rests {vm : Vm} {r : Running} {done : Bool} {k : ℕ} (h : Passed vm r done s) (hk : r.cont = .start k) :
    s.Rests ∧ s.vm.thread = vm.thread := by
  cases h with
  | next hc =>
    refine ⟨fun r' hr' => ?_, rfl⟩
    cases hr'
    exact ⟨k, hc.trans hk⟩
  | abort =>
    rw [Silverfir.abort, hk]
    exact ⟨fun r hr => (by cases hr), rfl⟩
  | finish hc h =>
    rw [Silverfir.finish, hc, hk] at h
    cases h
    exact ⟨fun r hr => (by cases hr), rfl⟩

/-- A trapped thread stays as it is, and makes no call. -/
theorem Unreset.rests (h : Unreset pf Module.U32Sizes s s') (hs : s.Rests)
    (ht : s.vm.thread.trapped = true) : s'.Rests ∧ s'.vm.thread = s.vm.thread := by
  obtain ⟨hstep, hreset⟩ := h
  have hrefused : ∀ {a argv r} {cont : FuncType → Cont}, callInThread s.vm s.vm.thread a argv cont ≠ .ok r := by
    intro a argv r cont hcall
    have hfalse := (callInThread_ok hcall).1
    rw [ht] at hfalse
    cases hfalse
  cases hstep with
  | sys h =>
    cases h with
    | @run vm r s' h =>
      obtain ⟨k, hk⟩ := hs r rfl
      obtain ⟨vm1, hstores, hpassed⟩ := runStep_passed h
      obtain ⟨hrests, hthread⟩ := hpassed.rests hk
      exact ⟨hrests, hthread.trans (stores_thread hstores)⟩
    | invoke _ h => exact absurd h hrefused
    | reset => exact absurd ⟨rfl, rfl⟩ hreset
    | instantiate hm h =>
      obtain ⟨hthread, hrunning⟩ := instantiateStep_ok h
      refine ⟨fun r hr => ?_, hthread⟩
      obtain ⟨k, fAddr, hcall⟩ := hrunning r hr
      obtain ⟨-, fn, fr, t', -, -, -, -, rfl⟩ := callInThread_ok hcall
      exact ⟨k, rfl⟩
  | call h => exact absurd h hrefused
  | @refuse vm a argv type msg h =>
    have htrapped : vm.thread.trapped = true := ht
    have hsame : refusedThread vm vm.thread a argv = vm.thread := by
      rw [refusedThread, checkCall, htrapped]
      rfl
    rw [hsame]
    exact ⟨fun r hr => (by cases hr), rfl⟩

end Rest

/-- Between calls a thread is trapped or its counters are zero; a nested call that returns leaves them
as they were; and a trapped thread makes no call until it is reset. -/
theorem threads_balanced (pf : Platform) (s : System) (hrun : ReflTransGen (ThreadStep pf Module.U32Sizes) {} s) :
    (s.Rests → s.vm.thread.trapped = true ∨ s.vm.thread.Idle) ∧
    (∀ s' r r', NestedCall pf Module.U32Sizes s s' → s.running = some r → s'.running = some r' →
      r'.thread.frameDepth = r.thread.frameDepth ∧ r'.thread.stackSize = r.thread.stackSize) ∧
    (s.Rests → s.vm.thread.trapped = true → ∀ s', ReflTransGen (Unreset pf Module.U32Sizes) s s' →
      s'.Rests ∧ s'.vm.thread = s.vm.thread) := by
  have hc := run_counted hrun
  refine ⟨fun _ => hc.thread, fun s' r r' h hr hr' => h.restores hc hr hr', fun hrests htrapped s' hrun' => ?_⟩
  have hinv : s'.Counted ∧ s'.Rests ∧ s'.vm.thread = s.vm.thread := by
    refine Run.invariant (p := fun x => x.Counted ∧ x.Rests ∧ x.vm.thread = s.vm.thread) ?_ hrun' ⟨hc, hrests, rfl⟩
    rintro x y hstep ⟨hcx, hrx, htx⟩
    obtain ⟨hry, hty⟩ := hstep.rests hrx (htx ▸ htrapped)
    exact ⟨threadStep_counted hstep.1 hcx, hry, hty.trans htx⟩
  exact hinv.2

/-! ### The limits -/

/-- With the new frame the counters are still within the limits. -/
def HasRoom (t : Thread) (fn : Func) : Prop :=
  t.frameDepth < silverfirStackFrameLimit ∧ t.stackSize + fn.stackSizeMax ≤ silverfirStackSizeLimit

/-- The thread a call is made in: that of the caller, that of the VM, or a new one. -/
def System.callThread (s : System) (cont : Cont) : Thread :=
  match s.running with
  | some r => r.thread
  | none =>
    match cont with
    | .invoke _ => s.vm.thread
    | .start _ => {}

/-- If a call of `in_place_dt_call` is made, there is room for it. -/
def Roomy (s s' : System) : Prop :=
  ∀ r fr rest fn, s'.running = some r → r.frames = fr :: rest → s.frames.length ≤ rest.length →
    s'.vm.func fr.fAddr = .ok fn → HasRoom (s.callThread r.cont) fn

def RoomyStep (pf : Platform) (mods : Module → Prop) (s s' : System) : Prop := ThreadStep pf mods s s' ∧ Roomy s s'

/-- The threads are within the limits; the running one by what its frames add up to. -/
structure System.Limited (s : System) : Prop where
  depth : s.vm.thread.frameDepth ≤ silverfirStackFrameLimit
  size : s.vm.thread.stackSize ≤ silverfirStackSizeLimit
  running : ∀ r, s.running = some r →
    r.frames.length ≤ silverfirStackFrameLimit ∧ stackSum s.vm r.frames ≤ silverfirStackSizeLimit

section Limits
variable {pf : Platform} {s s' : System} {vm : Vm} {r : Running}

/-- Within the limits nothing wraps. -/
theorem Thread.Counts.exact {t : Thread} {frames : List Frame} (h : t.Counts vm frames)
    (hle : stackSum vm frames ≤ silverfirStackSizeLimit) : t.stackSize = stackSum vm frames := by
  rw [h.size, u32, Nat.mod_eq_of_lt]
  refine lt_of_le_of_lt hle ?_
  decide

theorem stackSum_of_func {fr : Frame} {fn : Func} (hfn : vm.func fr.fAddr = .ok fn) (frames : List Frame) :
    stackSum vm (fr :: frames) = fn.stackSizeMax + stackSum vm frames := by
  rw [stackSum_cons, Vm.stackSizeOf, hfn]

theorem finish_limited {r' : Running} {results : List ValueU} (h : finish vm r' results = .ok s)
    (hcounts : r'.thread.Counts vm []) (hl : System.Limited ⟨vm, some r⟩) : s.Limited := by
  rw [finish] at h
  split at h
  · obtain ⟨vals, -, h⟩ := bind_eq_ok.mp h
    cases h
    obtain ⟨hdepth, hsize⟩ := hcounts.idle
    exact ⟨hdepth.trans_le (Nat.zero_le _), hsize.trans_le (Nat.zero_le _), fun r' hr' => (by cases hr')⟩
  · cases h
    exact ⟨hl.depth, hl.size, fun r' hr' => (by cases hr')⟩

theorem Moved.limited {fr : Frame} {rest : List Frame} {fn : Func} (h : Moved pf vm r fr rest fn s)
    (hframes : r.frames = fr :: rest) (hfn : vm.func fr.fAddr = .ok fn) (hmods : s.vm.mods = vm.mods)
    (hroom : Roomy ⟨vm, some r⟩ s) (hc : System.Counted ⟨vm, some r⟩) (hl : System.Limited ⟨vm, some r⟩) :
    s.Limited := by
  obtain ⟨hlen, hsum⟩ := hl.running r rfl
  obtain ⟨-, hcounts, -⟩ := hc.running r rfl
  have hdepth : r.thread.frameDepth ≤ silverfirStackFrameLimit := hcounts.depth.trans_le hlen
  have hsize : r.thread.stackSize ≤ silverfirStackSizeLimit := (hcounts.exact hsum).trans_le hsum
  have hthread := And.intro hl.depth hl.size
  rw [hframes] at hlen hsum hcounts
  cases h with
  | @stay vm' fr' hstores hadv =>
    refine ⟨?_, ?_, fun r' hr' => ?_⟩
    · rw [stores_thread hstores]
      exact hthread.1
    · rw [stores_thread hstores]
      exact hthread.2
    · cases hr'
      refine ⟨hlen, ?_⟩
      rw [stackSum_mods hmods, stackSum_cons, hadv.fAddr, ← stackSum_cons]
      exact hsum
  | @call callee calleeFn params args new caller t hadv hcallee hhost hent =>
    refine ⟨hthread.1, hthread.2, fun r' hr' => ?_⟩
    cases hr'
    obtain ⟨-, -, fn', hfn', -, rfl, -⟩ := enter_ok hent
    obtain ⟨hless, hfits⟩ := hroom _ _ (caller :: rest) fn' rfl rfl (by simp [System.frames, hframes]) hfn'
    have hsame : stackSum vm (caller :: rest) = stackSum vm (fr :: rest) := by
      rw [stackSum_cons, hadv.fAddr, ← stackSum_cons]
    refine ⟨?_, ?_⟩
    · rw [List.length_cons, List.length_cons, ← List.length_cons (a := fr), ← hcounts.depth]
      exact hless
    · rw [stackSum_of_func hfn', hsame, ← hcounts.exact hsum, Nat.add_comm]
      exact hfits
  | @ret caller caller' rest' hrest haddr hregs =>
    subst hrest
    refine ⟨hthread.1, hthread.2, fun r' hr' => ?_⟩
    cases hr'
    rw [stackSum_cons] at hsum
    refine ⟨?_, ?_⟩
    · rw [List.length_cons] at hlen ⊢
      exact Nat.le_of_succ_le hlen
    · rw [stackSum_cons, haddr, ← stackSum_cons]
      exact (Nat.le_add_left _ _).trans hsum
  | @abort vm' hstores =>
    rw [Silverfir.abort]
    split
    · exact ⟨hdepth, hsize, fun r' hr' => (by cases hr')⟩
    · refine ⟨?_, ?_, fun r' hr' => (by cases hr')⟩
      · rw [Vm.modifyInst, stores_thread hstores]
        exact hthread.1
      · rw [Vm.modifyInst, stores_thread hstores]
        exact hthread.2
  | finish hrest hfin =>
    subst hrest
    have hlt : fn.stackSizeMax < 2 ^ 32 := by
      obtain ⟨mod, hmod, hmem⟩ := func_mem_mods hfn
      exact hc.funcs mod hmod fn hmem
    exact finish_limited hfin (hcounts.leave hfn hlt) hl

/-- The first frame of a call that has room. -/
theorem Roomy.first {vm' : Vm} {t : Thread} {a : Addr} {argv : List TypedValue} {cont : FuncType → Cont}
    (hroom : Roomy ⟨vm, none⟩ ⟨vm', some r⟩) (hidle : t.Idle) (h : callInThread vm' t a argv cont = .ok r)
    (ht : System.callThread ⟨vm, none⟩ r.cont = t) :
    r.frames.length ≤ silverfirStackFrameLimit ∧ stackSum vm' r.frames ≤ silverfirStackSizeLimit := by
  obtain ⟨-, fn, fr, t', hfn, -, -, hent, rfl⟩ := callInThread_ok h
  obtain ⟨-, -, fn', hfn', -, rfl, -⟩ := enter_ok hent
  obtain ⟨-, hfits⟩ := hroom _ _ [] fn' rfl rfl (Nat.le_refl 0) hfn'
  rw [ht, hidle.2] at hfits
  refine ⟨?_, ?_⟩
  · rw [List.length_singleton]
    decide
  · rw [stackSum_of_func hfn']
    exact (Nat.add_comm _ _).trans_le hfits

theorem callThread_limited {a : Addr} {argv : List TypedValue} (hroom : Roomy ⟨vm, none⟩ ⟨vm, some r⟩)
    (hc : System.Counted ⟨vm, none⟩) (hl : System.Limited ⟨vm, none⟩)
    (h : callInThread vm vm.thread a argv .invoke = .ok r) : System.Limited ⟨vm, some r⟩ := by
  obtain ⟨hfalse, -, -, type, hcont⟩ := callInThread_counts hc.thread h
  have hidle : vm.thread.Idle := by
    obtain ht | hidle := hc.thread
    · rw [show vm.thread.trapped = false from hfalse] at ht
      cases ht
    · exact hidle
  refine ⟨hl.depth, hl.size, fun r' hr' => ?_⟩
  cases hr'
  refine hroom.first hidle h ?_
  rw [hcont]
  rfl

theorem threadStep_limited (h : RoomyStep pf Module.U32Sizes s s') (hc : s.Counted) (hl : s.Limited) : s'.Limited := by
  obtain ⟨hstep, hroom⟩ := h
  cases hstep with
  | sys h =>
    cases h with
    | run h =>
      obtain ⟨fr, rest, fn, hframes, hfn, hmoved⟩ := runStep_moved h
      exact hmoved.limited hframes hfn (Vm.mods_of_shape (runStep_shape h)) hroom hc hl
    | invoke _ h => exact callThread_limited hroom hc hl h
    | reset => exact ⟨Nat.zero_le _, Nat.zero_le _, fun r hr => (by cases hr)⟩
    | @instantiate vm modId mod s' hm h =>
      obtain ⟨hthread, hrunning⟩ := instantiateStep_ok h
      refine ⟨?_, ?_, fun r hr => ?_⟩
      · rw [hthread]
        exact hl.depth
      · rw [hthread]
        exact hl.size
      · obtain ⟨k, fAddr, hcall⟩ := hrunning r hr
        obtain ⟨-, -, -, type, hcont⟩ := callInThread_counts (.inr ⟨rfl, rfl⟩) hcall
        obtain ⟨vm', running⟩ := s'
        cases hr
        refine hroom.first ⟨rfl, rfl⟩ hcall ?_
        rw [hcont]
        rfl
  | call h => exact callThread_limited hroom hc hl h
  | @refuse vm a argv type msg h =>
    have hsame : (refusedThread vm vm.thread a argv).frameDepth = vm.thread.frameDepth ∧
        (refusedThread vm vm.thread a argv).stackSize = vm.thread.stackSize := by
      rw [refusedThread]
      split <;> exact ⟨rfl, rfl⟩
    exact ⟨hsame.1.trans_le hl.depth, hsame.2.trans_le hl.size, fun r hr => (by cases hr)⟩

end Limits

/-- A function `f` that calls itself. -/
def recursiveModule : Module where
  names := [[]]
  formatVersion := 1
  funcTypes := [{}]
  funcs := [{ linkage := { exported := true }, code := [0x10, 0, 0x0b] }]
  exports := [⟨[0x66], .func, 0⟩]

theorem loaded_recursiveModule : Loaded recursiveModule := by
  have hmod : moduleInit [0x00, 0x61, 0x73, 0x6d, 1, 0, 0, 0, 1, 4, 1, 0x60, 0, 0, 3, 2, 1, 0, 7, 5, 1, 1, 0x66, 0, 0,
      10, 6, 1, 4, 0, 0x10, 0, 0x0b] [] = .ok recursiveModule := by rfl
  exact .init hmod

def recursiveVm : Vm where
  instances := [{ moduleInstNew 0 recursiveModule with state := .ready, fAddrs := [some ⟨0, 0⟩] }]

/-- The states of the recursion, `n` calls deep behind the innermost one. -/
def recursion (n : ℕ) : System where
  vm := recursiveVm
  running := some
    { frames := ⟨⟨0, 0⟩, ⟨Regs.start, []⟩, [], 0⟩ :: List.replicate n ⟨⟨0, 0⟩, ⟨⟨2, 0⟩, []⟩, [], 0⟩
      thread := { frameDepth := n + 1 }
      cont := .invoke {} }

theorem recursion_step {n : ℕ} (hn : n < silverfirStackFrameLimit) :
    SysStep idle (· = recursiveModule) (recursion n) (recursion (n + 1)) := by
  have henter : enter recursiveVm { frameDepth := n + 1 } ⟨0, 0⟩ [] 0 =
      .ok (⟨⟨0, 0⟩, ⟨Regs.start, []⟩, [], 0⟩, { frameDepth := n + 1 + 1 }) := by
    have hlim : ¬ n + 1 > silverfirStackFrameLimit := Nat.not_lt.mpr hn
    have hu : u32 (n + 1 + 1) = n + 1 + 1 := Nat.mod_eq_of_lt (by simp only [silverfirStackFrameLimit] at hn; omega)
    rw [enter, if_neg hlim, hu]
    rfl
  refine .run ?_
  have hcall : ∀ rest, opCall idle recursiveVm
      ⟨⟨⟨0, 0⟩, ⟨Regs.start, []⟩, [], 0⟩ :: rest, { frameDepth := n + 1 }, .invoke {}⟩
      ⟨⟨0, 0⟩, ⟨Regs.start, []⟩, [], 0⟩ rest recursiveModule.funcs[0] ⟨⟨2, 0⟩, []⟩ 0 = .ok ⟨recursiveVm, some
      ⟨⟨⟨0, 0⟩, ⟨Regs.start, []⟩, [], 0⟩ :: ⟨⟨0, 0⟩, ⟨⟨2, 0⟩, []⟩, [], 0⟩ :: rest,
        { frameDepth := n + 1 + 1 }, .invoke {}⟩⟩ := by
    intro rest
    have hchecked : checked recursiveVm ⟨⟨⟨0, 0⟩, ⟨Regs.start, []⟩, [], 0⟩ :: rest, { frameDepth := n + 1 }, .invoke {}⟩
      (enter recursiveVm { frameDepth := n + 1 } ⟨0, 0⟩ [] 0) (fun x => .ok ⟨recursiveVm, some
      ⟨x.1 :: ⟨⟨0, 0⟩, ⟨⟨2, 0⟩, []⟩, [], 0⟩ :: rest, x.2, .invoke {}⟩⟩) =
      .ok ⟨recursiveVm, some ⟨⟨⟨0, 0⟩, ⟨Regs.start, []⟩, [], 0⟩ :: ⟨⟨0, 0⟩, ⟨⟨2, 0⟩, []⟩, [], 0⟩ :: rest,
        { frameDepth := n + 1 + 1 }, .invoke {}⟩⟩ := by
      rw [henter]
      rfl
    exact hchecked
  exact hcall (List.replicate n _)

/-- The first frame of the recursion is made by the host. -/
theorem recursion_zero : SysStep idle (· = recursiveModule) {} { vm := recursiveVm } ∧
    SysStep idle (· = recursiveModule) { vm := recursiveVm } (recursion 0) := by
  have hinst : instantiateStep idle {} 0 recursiveModule = .ok { vm := recursiveVm } := by decide +kernel
  have hfind : recursiveVm.findModuleFunc 0 [0x66] = some ⟨0, 0⟩ := by decide +kernel
  have hcall : callInThread recursiveVm {} ⟨0, 0⟩ [] .invoke =
      .ok ⟨[⟨⟨0, 0⟩, ⟨Regs.start, []⟩, [], 0⟩], { frameDepth := 1 }, .invoke {}⟩ := by decide +kernel
  exact ⟨.instantiate rfl hinst, .invoke hfind hcall⟩

theorem recursion_run (n : ℕ) (hn : n ≤ silverfirStackFrameLimit) :
    ReflTransGen (SysStep idle (· = recursiveModule)) {} (recursion n) := by
  induction n with
  | zero => exact .tail (.single recursion_zero.1) recursion_zero.2
  | succ n ih => exact (ih (Nat.le_of_succ_le hn)).tail (recursion_step hn)

theorem u32Sizes_recursiveModule : ∀ mod, mod = recursiveModule → mod.U32Sizes := by
  rintro mod rfl fn hfn
  rw [List.mem_singleton.mp hfn]
  decide

theorem threads_balanced_recursion :
    ((recursion 1).Rests → (recursion 1).vm.thread.trapped = true ∨ (recursion 1).vm.thread.Idle) ∧
    (∀ s' r r', NestedCall idle Module.U32Sizes (recursion 1) s' → (recursion 1).running = some r →
      s'.running = some r' → r'.thread.frameDepth = r.thread.frameDepth ∧ r'.thread.stackSize = r.thread.stackSize) ∧
    ((recursion 1).Rests → (recursion 1).vm.thread.trapped = true → ∀ s',
      ReflTransGen (Unreset idle Module.U32Sizes) (recursion 1) s' →
      s'.Rests ∧ s'.vm.thread = (recursion 1).vm.thread) := by
  have hrun : ReflTransGen (ThreadStep idle Module.U32Sizes) {} (recursion 1) :=
    ReflTransGen.mono (fun s s' h => .sys (h.mono u32Sizes_recursiveModule)) _ _ (recursion_run 1 (by decide))
  exact threads_balanced idle (recursion 1) hrun

end Silverfir
