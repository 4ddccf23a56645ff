import Silverfir.Lib.Lockstep
import Silverfir.Threads

/-! Two ways to call a function: from the host, with nothing below the call, and from wasm code, on top
of the frames of the caller. Both run the function in the same way until it returns, unless it has a
trampoline: the host runs its code then. -/
namespace Silverfir

open Lockstep (Both steps)
open InPlaceDt
open Relation (ReflTransGen)

/-! ### The same call on two stacks -/

/-- A pass, as long as more than `n` calls are active. -/
def System.passAbove (pf : Platform) (n : ℕ) (s : System) : R System :=
  match s.running with
  | none => .ok s
  | some r => if n < r.frames.length then runStep pf s.vm r else .ok s

/-- The frames differ in the buffer that their locals are in at most. -/
structure Frame.Same (fr fr' : Frame) : Prop where
  fAddr : fr'.fAddr = fr.fAddr
  act : fr'.act = fr.act
  locals : fr'.locals = fr.locals

/-- The counters are within the limits that `in_place_dt_call` checks. -/
def System.Unexhausted (s : System) : Prop :=
  ∀ r, s.running = some r →
    r.thread.frameDepth ≤ silverfirStackFrameLimit ∧ r.thread.stackSize ≤ silverfirStackSizeLimit

/-- A call of `callee` from the host and the same call made on top of the frames `base`: both are at the
same point, or both have returned with the same results, or both have trapped; and the stores are the
same. -/
inductive SameCall (callee : Addr) (fn : Func) (base : List Frame) : System → System → Prop
  | inside {vm r r' frames frames'} (hfn : vm.func callee = .ok fn) (hr : r.frames = frames)
      (hr' : r'.frames = frames' ++ base) (hsame : List.Forall₂ Frame.Same frames frames')
      (hbottom : frames.getLast?.map (·.fAddr) = some callee)
      (hcont : r.cont = .invoke fn.fnType ∨ ∃ k, r.cont = .start k) :
      SameCall callee fn base ⟨vm, some r⟩ ⟨vm, some r'⟩
  | returned {vm r r' results caller rest s} (hbase : base = caller :: rest) (hfin : finish vm r results = .ok s)
      (hr' : r'.frames =
        { caller with act := { caller.act with stack := results.reverse ++ caller.act.stack } } :: rest) :
      SameCall callee fn base s ⟨vm, some r'⟩
  | trapped {vm r r'} : SameCall callee fn base (abort vm r) (abort vm r')

section Pass
variable {pf : Platform} {vm : Vm} {r r' : Running} {callee : Addr} {fn : Func} {base frames frames' : List Frame}

theorem Frame.Same.refl (fr : Frame) : fr.Same fr := ⟨rfl, rfl, rfl⟩

theorem typedResults_of_parseTypes {count : ℕ} {st : Stream} {ts : List TypeId} (h : parseTypesLoop count st = .ok ts)
    {vals : List ValueU} (hlen : vals.length = count) : ∃ tvs, typedResults count st vals = .ok tvs := by
  induction count generalizing st ts vals with
  | zero => exact ⟨[], rfl⟩
  | succ n ih =>
    simp only [parseTypesLoop, bind_eq_ok] at h
    obtain ⟨⟨t, st'⟩, ht, h⟩ := h
    obtain ⟨v, vals, rfl⟩ := List.exists_cons_of_length_eq_add_one hlen
    simp only at h
    split at h
    · simp at h
    · next type htype =>
      obtain ⟨-, h⟩ := guard_eq_ok.mp h
      obtain ⟨ts', hts, -⟩ := bind_eq_ok.mp h
      obtain ⟨tvs, htvs⟩ := ih hts (Nat.succ.inj hlen)
      refine ⟨⟨type, v⟩ :: tvs, ?_⟩
      simp only [typedResults, ht, ok_bind, htype, htvs]

/-- The results of the outermost call can be handed out. -/
theorem finish_defined {ts : List TypeId} (hts : parseTypes fn.fnType.resultCount fn.fnType.results = .ok ts)
    (hcont : r.cont = .invoke fn.fnType ∨ ∃ k, r.cont = .start k) {results : List ValueU}
    (hlen : results.length = fn.fnType.resultCount) : ∃ s, finish vm r results = .ok s := by
  rw [finish]
  obtain hcont | ⟨k, hcont⟩ := hcont
  · obtain ⟨tvs, htvs⟩ := typedResults_of_parseTypes hts hlen
    rw [hcont]
    simp only [htvs, ok_bind]
    exact ⟨_, rfl⟩
  · rw [hcont]
    exact ⟨_, rfl⟩

/-- The frames of the two calls. -/
structure Stacked (callee : Addr) (fn : Func) (r : Running) (fr fr' : Frame) (rest rest' : List Frame) : Prop where
  top : fr.Same fr'
  below : List.Forall₂ Frame.Same rest rest'
  bottom : (fr :: rest).getLast?.map (·.fAddr) = some callee
  cont : r.cont = .invoke fn.fnType ∨ ∃ k, r.cont = .start k

/-- The pass keeps the two calls together, as long as it leaves the function alone. -/
def Together (callee : Addr) (fn : Func) (base : List Frame) (s t : System) : Prop :=
  s.vm.func callee = .ok fn → SameCall callee fn base s t

theorem checked_together {α β : Type} {X : α → β → Prop} {S : System → System → Prop} {x : R α} {y : R β}
    {next : α → R System} {next' : β → R System} (hx : Both Eq X x y) (h : ∀ a b, X a b → Both Eq S (next a) (next' b))
    (habort : S (abort vm r) (abort vm r')) : Both Eq S (checked vm r x next) (checked vm r' y next') := by
  cases hx with
  | ok hab => exact h _ _ hab
  | @error e e' he =>
    subst he
    cases e with
    | err => exact .ok habort
    | undefined => exact .error rfl

namespace Stacked

variable {fr fr' : Frame} {rest rest' : List Frame}

/-- The innermost call goes on. -/
theorem stay (h : Stacked callee fn r fr fr' rest rest') {vm1 : Vm} {fr1 fr1' : Frame} (hsame : fr1.Same fr1')
    (haddr : fr1.fAddr = fr.fAddr) : Together callee fn base ⟨vm1, some { r with frames := fr1 :: rest }⟩
      ⟨vm1, some { r' with frames := fr1' :: (rest' ++ base) }⟩ := by
  intro hfn
  have hbottom : (fr1 :: rest).getLast?.map (·.fAddr) = some callee := by
    rw [← h.bottom]
    cases rest with
    | nil => exact congrArg some haddr
    | cons g gs => rw [List.getLast?_cons_cons, List.getLast?_cons_cons]
  exact .inside hfn rfl rfl (.cons hsame h.below) hbottom h.cont

/-- The innermost call makes another one. -/
theorem push (h : Stacked callee fn r fr fr' rest rest') {new : Frame} {a : Act ValueU} {t t' : Thread} :
    Together callee fn base ⟨vm, some { r with frames := new :: { fr with act := a } :: rest, thread := t }⟩
      ⟨vm, some { r' with frames := new :: { fr' with act := a } :: (rest' ++ base), thread := t' }⟩ := by
  intro hfn
  have hbottom : (new :: { fr with act := a } :: rest).getLast?.map (·.fAddr) = some callee := by
    rw [List.getLast?_cons_cons, ← h.bottom]
    cases rest with
    | nil => rfl
    | cons g gs => rw [List.getLast?_cons_cons, List.getLast?_cons_cons]
  have hcaller : Frame.Same { fr with act := a } { fr' with act := a } := ⟨h.top.fAddr, rfl, h.top.locals⟩
  exact .inside hfn rfl rfl (.cons (.refl new) (.cons hcaller h.below)) hbottom h.cont

theorem hostCall_both (h : Stacked callee fn r fr fr' rest rest') {a : Act ValueU} {target : Func} {id : ℕ}
    {params : List ValueU} : Both Eq (Together callee fn base) (hostCall pf vm r fr rest a target id params)
      (hostCall pf vm r' fr' (rest' ++ base) a target id params) := by
  have hmem : mem0Of vm fr' = mem0Of vm fr := by rw [mem0Of, mem0Of, h.top.fAddr]
  rw [hostCall, hostCall, hmem]
  refine checked_together (.refl (fun _ => rfl) _) ?_ fun _ => .trapped
  rintro x _ rfl
  exact .ok (h.stay ⟨h.top.fAddr, rfl, h.top.locals⟩ rfl)

/-- The checks of the counters do not differ while both are within the limits. -/
theorem enter_both {t t' : Thread} {target : Addr} {params : List ValueU} {args : ℕ}
    (ht : t.frameDepth ≤ silverfirStackFrameLimit ∧ t.stackSize ≤ silverfirStackSizeLimit)
    (ht' : t'.frameDepth ≤ silverfirStackFrameLimit ∧ t'.stackSize ≤ silverfirStackSizeLimit) :
    Both Eq (fun x x' => x'.1 = x.1) (enter vm t target params args) (enter vm t' target params args) := by
  rw [enter, enter, if_neg (Nat.not_lt.mpr ht.1), if_neg (Nat.not_lt.mpr ht.2), if_neg (Nat.not_lt.mpr ht'.1),
    if_neg (Nat.not_lt.mpr ht'.2)]
  refine (Both.refl (fun _ => rfl) (vm.func target)).bind ?_
  rintro fn' _ - - rfl
  split
  · exact .error rfl
  · exact .ok rfl

theorem callFunc_both (h : Stacked callee fn r fr fr' rest rest') {a : Act ValueU} {target : Addr} {targetFn : Func}
    {params : List ValueU} {args : ℕ}
    (ht : r.thread.frameDepth ≤ silverfirStackFrameLimit ∧ r.thread.stackSize ≤ silverfirStackSizeLimit)
    (ht' : r'.thread.frameDepth ≤ silverfirStackFrameLimit ∧ r'.thread.stackSize ≤ silverfirStackSizeLimit) :
    Both Eq (Together callee fn base) (callFunc pf vm r fr rest a target targetFn params args)
      (callFunc pf vm r' fr' (rest' ++ base) a target targetFn params args) := by
  rw [callFunc, callFunc]
  split
  · exact h.hostCall_both
  · refine checked_together (enter_both ht ht') ?_ fun _ => .trapped
    rintro ⟨new, t⟩ ⟨_, t'⟩ rfl
    exact .ok h.push

theorem opPlain_both (h : Stacked callee fn r fr fr' rest rest') {i : Instr} {a : Act ValueU} :
    Both Eq (Together callee fn base) (opPlain pf vm r fr rest i a) (opPlain pf vm r' fr' (rest' ++ base) i a) := by
  rw [opPlain, opPlain, h.top.fAddr, h.top.locals]
  split
  · exact .error rfl
  · split
    · exact .ok (h.stay ⟨rfl, rfl, rfl⟩ rfl)
    · exact .ok fun _ => .trapped
    · exact .error rfl

theorem opCall_both (h : Stacked callee fn r fr fr' rest rest') {caller : Func} {a : Act ValueU} {idx : ℕ}
    (ht : r.thread.frameDepth ≤ silverfirStackFrameLimit ∧ r.thread.stackSize ≤ silverfirStackSizeLimit)
    (ht' : r'.thread.frameDepth ≤ silverfirStackFrameLimit ∧ r'.thread.stackSize ≤ silverfirStackSizeLimit) :
    Both Eq (Together callee fn base) (opCall pf vm r fr rest caller a idx)
      (opCall pf vm r' fr' (rest' ++ base) caller a idx) := by
  rw [opCall, opCall, h.top.fAddr]
  refine (Both.refl (fun _ => rfl) _).bind ?_
  rintro target _ - - rfl
  refine (Both.refl (fun _ => rfl) _).bind ?_
  rintro targetFn _ - - rfl
  refine (Both.refl (fun _ => rfl) _).bind ?_
  rintro ⟨params, a'⟩ _ - - rfl
  exact h.callFunc_both ht ht'

theorem opCallIndirect_both (h : Stacked callee fn r fr fr' rest rest') {caller : Func} {a : Act ValueU}
    {typeIdx tableIdx : ℕ}
    (ht : r.thread.frameDepth ≤ silverfirStackFrameLimit ∧ r.thread.stackSize ≤ silverfirStackSizeLimit)
    (ht' : r'.thread.frameDepth ≤ silverfirStackFrameLimit ∧ r'.thread.stackSize ≤ silverfirStackSizeLimit) :
    Both Eq (Together callee fn base) (opCallIndirect pf vm r fr rest caller a typeIdx tableIdx)
      (opCallIndirect pf vm r' fr' (rest' ++ base) caller a typeIdx tableIdx) := by
  rw [opCallIndirect, opCallIndirect, h.top.fAddr]
  split
  · exact .error rfl
  · refine checked_together (.refl (fun _ => rfl) _) ?_ fun _ => .trapped
    rintro target _ rfl
    refine (Both.refl (fun _ => rfl) _).bind ?_
    rintro targetFn _ - - rfl
    refine (Both.refl (fun _ => rfl) _).bind ?_
    rintro ⟨params, a'⟩ _ - - rfl
    exact h.callFunc_both ht ht'

/-- The function of the bottom frame is the one that was called. -/
theorem opFinish_both (h : Stacked callee fn r fr fr' rest rest') (hbase : base ≠ []) {ts : List TypeId}
    (hts : parseTypes fn.fnType.resultCount fn.fnType.results = .ok ts) (hfn : vm.func callee = .ok fn) {top : Func}
    (htop : vm.func fr.fAddr = .ok top) {stack : List ValueU} :
    Both Eq (Together callee fn base) (opFinish vm r rest top stack) (opFinish vm r' (rest' ++ base) top stack) := by
  rw [opFinish, opFinish]
  split
  · exact .error rfl
  · next hlen =>
    have hbelow := h.below
    cases hbelow with
    | nil =>
      have haddr : fr.fAddr = callee := Option.some.inj h.bottom
      rw [haddr, hfn] at htop
      cases htop
      obtain ⟨caller, base', rfl⟩ := List.exists_cons_of_ne_nil hbase
      have hresults : (stack.take fn.fnType.resultCount).reverse.length = fn.fnType.resultCount := by
        rw [List.length_reverse, List.length_take]
        omega
      obtain ⟨s, hs⟩ := @finish_defined vm { r with thread := r.thread.leave fn } _ _ hts h.cont _ hresults
      simp only [hs, List.nil_append]
      refine .ok fun _ => .returned rfl hs ?_
      rw [List.reverse_reverse]
    | @cons caller caller' below below' hcaller hbelow =>
      have hbottom : (caller :: below).getLast?.map (·.fAddr) = some callee := by
        rw [← h.bottom, List.getLast?_cons_cons]
      have hstacked : Stacked callee fn { r with thread := r.thread.leave top } caller caller' below below' :=
        ⟨hcaller, hbelow, hbottom, h.cont⟩
      refine .ok (hstacked.stay ⟨hcaller.fAddr, ?_, hcaller.locals⟩ rfl)
      rw [hcaller.act]

/-- A pass of the loop does the same in both calls. -/
theorem runStep_both (h : Stacked callee fn r fr fr' rest rest') (hr : r.frames = fr :: rest)
    (hr' : r'.frames = fr' :: (rest' ++ base)) (hbase : base ≠ []) {ts : List TypeId}
    (hts : parseTypes fn.fnType.resultCount fn.fnType.results = .ok ts) (hfn : vm.func callee = .ok fn)
    (ht : r.thread.frameDepth ≤ silverfirStackFrameLimit ∧ r.thread.stackSize ≤ silverfirStackSizeLimit)
    (ht' : r'.thread.frameDepth ≤ silverfirStackFrameLimit ∧ r'.thread.stackSize ≤ silverfirStackSizeLimit) :
    Both Eq (Together callee fn base) (runStep pf vm r) (runStep pf vm r') := by
  rw [runStep, runStep, hr, hr']
  simp only [h.top.fAddr, h.top.act]
  refine (Both.refl (fun _ => rfl) _).bind ?_
  rintro top _ htop - rfl
  refine (Both.refl (fun _ => rfl) _).bind ?_
  rintro out _ hout - rfl
  cases out with
  | trap => exact .ok fun _ => .trapped
  | next a => exact .ok (h.stay ⟨rfl, rfl, h.top.locals⟩ rfl)
  | finish stack => exact h.opFinish_both hbase hts hfn htop
  | plain i a =>
    cases i with
    | call idx => exact h.opCall_both ht ht'
    | callIndirect typeIdx tableIdx => exact h.opCallIndirect_both ht ht'
    | _ => exact h.opPlain_both

end Stacked

/-! ### Whole calls -/

theorem passAbove_rest {s : System} {n : ℕ} (h : s.frames.length ≤ n) : s.passAbove pf n = .ok s := by
  rw [System.passAbove]
  split
  · rfl
  · next r hr =>
    rw [frames_of_running hr] at h
    exact if_neg (Nat.not_lt.mpr h)

/-- As long as the call from the host is active, the other one is. -/
theorem SameCall.active {s t : System} (h : SameCall callee fn base s t) (hs : s.frames ≠ []) :
    base.length < t.frames.length := by
  cases h with
  | inside hfn hr hr' hsame =>
    rw [frames_of_running rfl, hr] at hs
    rw [frames_of_running rfl, hr', List.length_append, ← hsame.length_eq]
    exact Nat.lt_add_of_pos_left (List.length_pos_iff.mpr hs)
  | returned _ hfin => exact absurd (frames_finish hfin) hs
  | trapped => exact absurd (frames_abort _ _) hs

theorem passAbove_both {s t : System} (h : SameCall callee fn base s t) (hbase : base ≠ []) {ts : List TypeId}
    (hts : parseTypes fn.fnType.resultCount fn.fnType.results = .ok ts) (hs : s.Unexhausted) (ht : t.Unexhausted) :
    Both Eq (SameCall callee fn base) (s.passAbove pf 0) (t.passAbove pf base.length) := by
  cases h with
  | @inside vm r r' frames frames' hfn hr hr' hsame hbottom hcont =>
    cases hsame with
    | nil => cases hbottom
    | @cons fr fr' rest rest' htop hbelow =>
      have hpos : 0 < r.frames.length := by
        rw [hr]
        exact Nat.succ_pos _
      have habove : base.length < r'.frames.length := by
        rw [hr', List.length_append, List.length_cons]
        omega
      rw [System.passAbove, System.passAbove]
      simp only [if_pos hpos, if_pos habove]
      have hstacked : Stacked callee fn r fr fr' rest rest' := ⟨htop, hbelow, hbottom, hcont⟩
      refine (hstacked.runStep_both hr hr' hbase hts hfn (hs r rfl) (ht r' rfl)).imp fun a b ha _ htogether => ?_
      refine htogether ?_
      rw [func_of_mods (Vm.mods_of_shape (runStep_shape ha))]
      exact hfn
  | @returned vm r r' results caller rest s hbase hfin hr' =>
    have hlen : (System.frames ⟨vm, some r'⟩).length ≤ base.length := by
      rw [frames_of_running rfl, hr', hbase]
      exact le_rfl
    rw [passAbove_rest hlen, passAbove_rest (by rw [frames_finish hfin]; exact le_rfl)]
    exact .ok (.returned hbase hfin hr')
  | @trapped vm r r' =>
    have hnone : ∀ r n, (abort vm r).passAbove pf n = .ok (abort vm r) := by
      intro r n
      refine passAbove_rest ?_
      rw [frames_abort]
      exact Nat.zero_le n
    rw [hnone, hnone]
    exact .ok .trapped

theorem enter_of_limits {t : Thread} {params : List ValueU} {args : ℕ} (hfn : vm.func callee = .ok fn)
    (ht : t.frameDepth ≤ silverfirStackFrameLimit ∧ t.stackSize ≤ silverfirStackSizeLimit)
    (hlocals : fn.fnType.paramCount ≤ fn.localCount) :
    enter vm t callee params args = .ok
      (⟨callee, ⟨Regs.start, []⟩, params ++ List.replicate (fn.localCount - fn.fnType.paramCount) 0, args⟩,
        { t with frameDepth := u32 (t.frameDepth + 1), stackSize := u32 (t.stackSize + fn.stackSizeMax) }) := by
  rw [enter, if_neg (Nat.not_lt.mpr ht.1), if_neg (Nat.not_lt.mpr ht.2), hfn]
  exact if_neg (Nat.not_lt.mpr hlocals)

end Pass

/-- After any number of passes the two calls are together, if both have been within the limits so far. -/
def AgreeFrom (pf : Platform) (callee : Addr) (fn : Func) (base : List Frame) (s t : System) : Prop :=
  ∀ n, (∀ m < n, ∀ s' t', steps (System.passAbove pf 0) m s = .ok s' →
      steps (System.passAbove pf base.length) m t = .ok t' → s'.Unexhausted ∧ t'.Unexhausted) →
    Both Eq (SameCall callee fn base) (steps (System.passAbove pf 0) n s) (steps (System.passAbove pf base.length) n t)

/-- A module whose function `f` is bound to a host function; its code returns 7. -/
def hostModule : Module where
  names := [[0x68]]
  formatVersion := 1
  funcTypes := [{ resultCount := 1, results := [0x7f] }]
  funcs := [{
    fnType := { resultCount := 1, results := [0x7f] }
    linkage := { exported := true }
    code := [0x41, 7, 0x0b]
    hostFunc := some 0 }]
  exports := [⟨[0x66], .func, 0⟩]

theorem loaded_hostModule : Loaded hostModule := by
  have hmod : moduleInit [0x00, 0x61, 0x73, 0x6d, 1, 0, 0, 0, 1, 5, 1, 0x60, 0, 1, 0x7f, 3, 2, 1, 0, 7, 5, 1, 1,
      0x66, 0, 0, 10, 6, 1, 4, 0, 0x41, 7, 0x0b] [0x68] =
      .ok { hostModule with funcs := hostModule.funcs.map Func.unbound } := by rfl
  have hinject : injectHostFunctions (fun _ => some 0) { hostModule with funcs := hostModule.funcs.map Func.unbound } =
      .ok hostModule := by rfl
  exact .host (.init hmod) hinject

/-- A module that exports the function again, and a function `g` that calls it. -/
def wrapModule : Module where
  names := [[]]
  formatVersion := 1
  funcTypes := [{ resultCount := 1, results := [0x7f] }]
  funcs := [
    { fnType := { resultCount := 1, results := [0x7f] }
      linkage := { imported := true, exported := true }
      path := ⟨[0x68], [0x66]⟩ },
    { fnType := { resultCount := 1, results := [0x7f] }
      linkage := { exported := true }
      code := [0x10, 0, 0x0b] }]
  importedFuncCount := 1
  exports := [⟨[0x66], .func, 0⟩, ⟨[0x67], .func, 1⟩]

theorem loaded_wrapModule : Loaded wrapModule := by
  have hmod : moduleInit [0x00, 0x61, 0x73, 0x6d, 1, 0, 0, 0, 1, 5, 1, 0x60, 0, 1, 0x7f, 2, 7, 1, 1, 0x68, 1,
      0x66, 0, 0, 3, 2, 1, 0, 7, 9, 2, 1, 0x66, 0, 0, 1, 0x67, 0, 1, 10, 6, 1, 4, 0, 0x10, 0, 0x0b]
        [] = .ok wrapModule := by rfl
  exact .init hmod

/-- Both modules instantiated. -/
def wrapVm : Vm where
  instances := [
    { moduleInstNew 0 { hostModule with funcs := hostModule.funcs.map ({ · with stackSizeMax := 1 }) } with
      state := .ready
      fAddrs := [some ⟨0, 0⟩] },
    { moduleInstNew 1 { wrapModule with funcs := wrapModule.funcs.mapIdx fun i f => { f with stackSizeMax := i } } with
      state := .ready
      fAddrs := [some ⟨0, 0⟩, some ⟨1, 1⟩] }]

theorem wrapVm_reached : ReflTransGen (SysStep idle Module.OfHost) {} { vm := wrapVm } := by
  have hhost : instantiateStep idle {} 0 hostModule = .ok { vm := { instances := wrapVm.instances.take 1 } } := by
    decide +kernel
  have hwrap : instantiateStep idle { instances := wrapVm.instances.take 1 } 1 wrapModule = .ok { vm := wrapVm } := by
    decide +kernel
  exact .tail (.single (.instantiate ⟨_, loaded_hostModule, rfl⟩ hhost))
    (.instantiate ⟨_, loaded_wrapModule, rfl⟩ hwrap)

end Silverfir
