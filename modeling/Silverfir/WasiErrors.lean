import Silverfir.WasiBounds

/-! Whether the WASI host functions pass the errors of the library on. A call that ends in a trap
has no result that the guest could see. -/
namespace Silverfir.Wasi

variable {e : Env} {ctx : TrCtx} {α β : Type}

/-- What follows the answer `err` of the library. An answer of success counts when it is the last
one of the call. -/
def Answers (err : Errno) (res : Errno) (post : List Touch) : Prop :=
  (err = esuccess → ∀ other, .answer other ∉ post) →
    res = err ∧ .result err ∈ post ∧ (err ≠ esuccess → ∀ s value, .write s value ∉ post)

/-- A call that returns has the error of the library as its result and, after an error, has written
nothing more. -/
def Propagates (c : Call Errno) : Prop :=
  ∀ res, c.ending = .ok res → ∀ pre err post, c.log = pre ++ .answer err :: post → Answers err res post

/-- The library is not called. -/
def Quiet (c : Call α) : Prop := Access.Safe (fun t => ∀ err, t ≠ .answer err) (fun _ => True) c

theorem quiet_iff {c : Call α} : Quiet c ↔ ∀ err, .answer err ∉ c.log := by
  constructor
  · intro h err ht
    exact h.touched _ ht err rfl
  · intro h
    constructor
    · intro t ht err he
      exact h err (he ▸ ht)
    · exact fun _ _ => trivial

/-! ### One rule for each way to go on -/

theorem Quiet.propagates {c : Call Errno} (h : Quiet c) : Propagates c := by
  intro res _ pre err post hlog
  have hmem : Touch.answer err ∈ c.log := by
    rw [hlog]
    exact List.mem_append_right _ List.mem_cons_self
  exact absurd hmem (quiet_iff.mp h err)

theorem Quiet.bind {c : Call α} {f : α → Call β} (h : Quiet c) (hf : ∀ a, c.ending = .ok a → Quiet (f a)) :
    Quiet (c >>= f) := (Access.safe_bind _ _).mpr ⟨h, hf⟩

theorem bind_ending {c : Call α} {f : α → Call β} {b : β} (h : (c >>= f).ending = .ok b) :
    ∃ a, c.ending = .ok a ∧ (f a).ending = .ok b ∧ (c >>= f).log = c.log ++ (f a).log := by
  obtain ⟨log, err | a⟩ := c
  · cases h
  · exact ⟨a, rfl, h, rfl⟩

theorem Quiet.propagates_bind {c : Call α} {f : α → Call Errno} (h : Quiet c)
    (hf : ∀ a, c.ending = .ok a → Propagates (f a)) : Propagates (c >>= f) := by
  intro res hres pre err post hlog
  obtain ⟨a, hc, hfa, hsplit⟩ := bind_ending hres
  rw [hsplit, List.append_eq_append_iff] at hlog
  rcases hlog with ⟨mid, -, hrest⟩ | ⟨mid, hpre, hmid⟩
  · exact hf a hc res hfa mid err post hrest
  · cases mid with
    | nil => exact hf a hc res hfa [] err post hmid.symm
    | cons t mid =>
      -- the answer would lie in the log of `c`
      have ht : Touch.answer err = t := (List.cons.inj hmid).1
      have hmem : Touch.answer err ∈ c.log := by
        rw [hpre, ht]
        exact List.mem_append_right _ List.mem_cons_self
      exact absurd hmem (quiet_iff.mp h err)

theorem propagates_answer {err : Errno} {f : Unit → Call Errno} :
    Propagates (Access.touch (.answer err) >>= f) ↔
      Propagates (f ()) ∧ ∀ res, (f ()).ending = .ok res → Answers err res (f ()).log := by
  constructor
  · intro h
    constructor
    · intro res hres pre err' post hlog
      exact h res hres (.answer err :: pre) err' post (congrArg (Touch.answer err :: ·) hlog)
    · intro res hres
      exact h res hres [] err _ rfl
  · rintro ⟨hrest, hthis⟩ res hres pre err' post hlog
    cases pre with
    | nil =>
      obtain ⟨ht, hpost⟩ := List.cons.inj hlog
      cases ht
      subst hpost
      exact hthis res hres
    | cons t pre => exact hrest res hres pre err' post (List.cons.inj hlog).2

theorem quiet_finish (err : Errno) : Quiet (finish err) := by
  unfold finish Quiet
  rw [Access.safe_touch_bind]
  constructor
  · intro err' h
    cases h
  · exact Access.safe_pure _

theorem finish_answers {err res : Errno} (h : (finish err).ending = .ok res) : Answers err res (finish err).log := by
  intro _
  cases h
  refine ⟨rfl, List.mem_singleton.mpr rfl, ?_⟩
  intro _ s value hw
  cases List.mem_singleton.mp hw

theorem propagates_checkErr {err : Errno} {rest : Call Errno} (h : err = esuccess → Propagates rest) :
    Propagates (checkErr err rest) := by
  unfold checkErr
  split
  · exact (quiet_finish err).propagates
  · next hok => exact h (not_not.mp hok)

theorem checkErr_answers {err : Errno} {rest : Call Errno}
    (h : err = esuccess → ∀ res, rest.ending = .ok res → Answers esuccess res rest.log) {res : Errno}
    (hres : (checkErr err rest).ending = .ok res) : Answers err res (checkErr err rest).log := by
  unfold checkErr at hres ⊢
  split at hres
  · next herr =>
    rw [if_pos herr]
    exact finish_answers hres
  · next hok =>
    rw [if_neg hok, not_not.mp hok]
    exact h (not_not.mp hok) res hres

theorem propagates_checked {err : Errno} {rest : Call Errno} (hrest : err = esuccess → Propagates rest)
    (hok : err = esuccess → ∀ res, rest.ending = .ok res → Answers esuccess res rest.log) :
    Propagates (Access.touch (.answer err) >>= fun _ => checkErr err rest) := by
  rw [propagates_answer]
  constructor
  · exact propagates_checkErr hrest
  · intro res hres
    exact checkErr_answers hok hres

theorem propagates_report (err : Errno) : Propagates (report err) := by
  unfold report
  apply propagates_checked
  · intro _
    exact (quiet_finish esuccess).propagates
  · intro _ res hres
    exact finish_answers hres

/-! ### The pieces that do not call the library -/

theorem quiet_pmem0 : Quiet ctx.pmem0 := by
  unfold TrCtx.pmem0
  cases ctx.mem0 with
  | none => exact (Access.safe_stop _).mpr trivial
  | some m => exact Access.safe_pure m

theorem quiet_serdesRead {m : List UInt8} {width : ℕ} {offset : BitVec 64} :
    Quiet (serdesRead ctx m width offset) := by
  unfold serdesRead Quiet
  rw [Access.safe_touch_bind]
  constructor
  · intro err h
    cases h
  · exact Access.safe_pure _

theorem quiet_serdesWrite {width value : ℕ} {offset : BitVec 64} : Quiet (serdesWrite width offset value) := by
  unfold serdesWrite Quiet
  rw [Access.safe_touch]
  intro err h
  cases h

theorem quiet_each {f : α → Call Unit} (hend : ∀ a, (f a).ending = .ok ()) (hf : ∀ a, Quiet (f a)) (l : List α) :
    Quiet (Access.each f l) := (Access.safe_each hend l).mpr fun a _ => hf a

theorem quiet_writeStruct {offset : BitVec 64} {fields : List Field} : Quiet (writeStruct offset fields) :=
  quiet_each (fun _ => rfl) (fun _ => quiet_serdesWrite) fields

theorem quiet_hand (spans : List Span) : Quiet (hand ctx spans) := by
  unfold hand
  apply quiet_pmem0.bind
  intro _ _
  apply quiet_each (fun _ => rfl)
  intro s
  unfold Quiet
  rw [Access.safe_touch]
  intro err h
  cases h

theorem quiet_readIovec {m : List UInt8} {offset : BitVec 64} : Quiet (readIovec ctx m offset) :=
  quiet_serdesRead.bind fun _ _ => quiet_serdesRead.bind fun _ _ => Access.safe_pure _

theorem quiet_readvIovec {m : List UInt8} (n : ℕ) (offset : BitVec 64) (iovs : List Span) :
    Quiet (readvIovec ctx m n offset iovs) := by
  induction n generalizing offset iovs with
  | zero => exact Access.safe_pure _
  | succ n ih =>
    unfold readvIovec
    apply quiet_readIovec.bind
    rintro ⟨err, iov⟩ -
    dsimp only
    split
    · exact Access.safe_pure _
    · exact ih _ _

theorem quiet_readSubscription {m : List UInt8} {offset : BitVec 64} : Quiet (readSubscription ctx m offset) := by
  unfold readSubscription
  apply quiet_serdesRead.bind
  intro _ _
  apply quiet_serdesRead.bind
  intro type _
  split
  · exact quiet_serdesRead.bind fun _ _ => quiet_serdesRead.bind fun _ _ => quiet_serdesRead.bind fun _ _ =>
      quiet_serdesRead.bind fun _ _ => Access.safe_pure _
  · split
    · exact quiet_serdesRead.bind fun _ _ => Access.safe_pure _
    · exact Access.safe_pure _

theorem quiet_readEvent {m : List UInt8} {offset : BitVec 64} : Quiet (readEvent ctx m offset) := by
  unfold readEvent
  apply quiet_serdesRead.bind
  intro _ _
  apply quiet_serdesRead.bind
  intro _ _
  apply quiet_serdesRead.bind
  intro type _
  split
  · exact quiet_serdesRead.bind fun _ _ => quiet_serdesRead.bind fun _ _ => Access.safe_pure _
  · exact Access.safe_pure _

/-! ### The shapes of the wrappers -/

/-- What a wrapper stores after a success, and the result of it. -/
def stored (ctx : TrCtx) (out : α) (write : α → Call Unit) : Call Errno := do
  let _ ← ctx.pmem0
  write out
  finish esuccess

theorem store_eq (answer : Errno × α) (write : α → Call Unit) :
    store ctx answer write =
      (Access.touch (.answer answer.1) >>= fun _ => checkErr answer.1 (stored ctx answer.2 write)) := rfl

theorem quiet_stored {out : α} {write : α → Call Unit} (hw : ∀ a, Quiet (write a)) : Quiet (stored ctx out write) :=
  quiet_pmem0.bind fun _ _ => (hw out).bind fun _ _ => quiet_finish esuccess

theorem stored_answers {out : α} {write : α → Call Unit} {res : Errno}
    (h : (stored ctx out write).ending = .ok res) : Answers esuccess res (stored ctx out write).log := by
  obtain ⟨m, -, hrest, hlog⟩ := bind_ending h
  obtain ⟨_, -, hfinish, hlog'⟩ := bind_ending hrest
  have hres := finish_answers hfinish
  intro _
  refine ⟨(hres fun _ other hmem => ?_).1, ?_, fun hne => absurd rfl hne⟩
  · exact quiet_iff.mp (quiet_finish esuccess) other hmem
  · change Touch.result esuccess ∈ (ctx.pmem0 >>= fun _ => write out >>= fun _ => finish esuccess).log
    rw [hlog, hlog']
    exact List.mem_append_right _ (List.mem_append_right _ (List.mem_singleton.mpr rfl))

theorem propagates_store {answer : Errno × α} {write : α → Call Unit} (hw : ∀ a, Quiet (write a)) :
    Propagates (store ctx answer write) := by
  rw [store_eq]
  apply propagates_checked
  · intro _
    exact (quiet_stored hw).propagates
  · intro _ res hres
    exact stored_answers hres

theorem propagates_store_write {answer : Errno × α} {width : ℕ} {offset : BitVec 64} {value : α → ℕ} :
    Propagates (store ctx answer fun a => serdesWrite width offset (value a)) :=
  propagates_store fun _ => quiet_serdesWrite

theorem propagates_store_struct {answer : Errno × α} {offset : BitVec 64} {fields : α → List Field} :
    Propagates (store ctx answer fun a => writeStruct offset (fields a)) :=
  propagates_store fun _ => quiet_writeStruct

theorem propagates_hand {spans : List Span} {c : Call Errno} (h : Propagates c) :
    Propagates (hand ctx spans >>= fun _ => c) := (quiet_hand spans).propagates_bind fun _ _ => h

/-- The library is asked again, so that its first answer does not count. -/
theorem asked_answers {spans : List Span} {answer : Errno × α} {write : α → Call Unit} {res : Errno}
    (h : (hand ctx spans >>= fun _ => store ctx answer write).ending = .ok res) :
    Answers esuccess res (hand ctx spans >>= fun _ => store ctx answer write).log := by
  obtain ⟨_, -, hstore, hlog⟩ := bind_ending h
  intro hlast
  have hmem : Touch.answer answer.1 ∈ (store ctx answer write).log := by
    obtain ⟨_, -, -, hlog'⟩ := bind_ending (c := Access.touch (.answer answer.1)) hstore
    rw [store, hlog']
    exact List.mem_append_left _ (List.mem_singleton.mpr rfl)
  refine absurd ?_ (hlast rfl answer.1)
  rw [hlog]
  exact List.mem_append_right _ hmem

theorem propagates_vectored (call : List Span → Errno × BitVec 32) {iovs iovsLen done : BitVec 32} :
    Propagates (vectored e ctx call iovs iovsLen done) := by
  unfold vectored
  split
  · have hquiet : Quiet (Access.stop (.err .general "OOM") : Call Errno) := (Access.safe_stop _).mpr trivial
    exact hquiet.propagates
  · apply quiet_pmem0.propagates_bind
    intro m _
    apply (quiet_readvIovec _ _ _).propagates_bind
    rintro ⟨err, iovec⟩ -
    apply propagates_checked
    · intro _
      exact propagates_hand propagates_store_write
    · intro _ res hres
      exact asked_answers hres

theorem propagates_tableGet {sizes : Errno × BitVec 32 × BitVec 32} {get : Span → Errno × (ℕ → BitVec 32)}
    {table buf : BitVec 32} : Propagates (tableGet e ctx sizes get table buf) := by
  obtain ⟨err, count, bufSize⟩ := sizes
  have hwrites : ∀ offsets : ℕ → BitVec 32, Quiet (Access.each (fun i =>
      serdesWrite 4 (size table + BitVec.ofNat 64 (4 * i)) (buf + offsets i).toNat) (List.range count.toNat)) :=
    fun _ => quiet_each (fun _ => rfl) (fun _ => quiet_serdesWrite) _
  apply propagates_checked
  · intro _
    split
    · exact (quiet_finish esuccess).propagates
    · split
      · have hquiet : Quiet (Access.stop (.err .general "vector: out of memory") : Call Errno) :=
          (Access.safe_stop _).mpr trivial
        exact hquiet.propagates
      · exact propagates_hand (propagates_store hwrites)
  · intro _ res hres
    split at hres
    · next hz =>
      rw [if_pos hz]
      exact finish_answers hres
    · next hz =>
      rw [if_neg hz]
      split at hres
      · cases hres
      · next hmem =>
        rw [if_neg hmem]
        exact asked_answers hres

theorem propagates_pollOneoff : Propagates (pollOneoff e ctx) :=
  quiet_pmem0.propagates_bind fun _ _ => quiet_readSubscription.propagates_bind fun _ _ =>
    quiet_readEvent.propagates_bind fun _ _ => propagates_store_write

/-! ### The two wrappers that leave the error out -/

/-- The result is not set after a success. -/
theorem propagates_environSizesGet :
    Propagates (environSizesGet e ctx) ↔ (e.environSizesGet.1 = esuccess → ctx.mem0 = none) := by
  rcases he : e.environSizesGet with ⟨err, count, bufSize⟩
  have hshape : environSizesGet e ctx = (Access.touch (.answer err) >>= fun _ => checkErr err (do
      let _ ← ctx.pmem0
      serdesWrite 4 (size (ctx.i32 0)) count.toNat
      serdesWrite 4 (size (ctx.i32 1)) bufSize.toNat
      pure 0)) := by
    unfold environSizesGet
    rw [he]
    rfl
  rw [hshape]
  constructor
  · intro h hok
    change err = esuccess at hok
    subst hok
    by_contra hmem
    obtain ⟨m, hm⟩ := Option.ne_none_iff_exists'.mp hmem
    -- the two writes are all that comes after the answer
    have hlast := (propagates_answer.mp h).2 0 (by
      unfold TrCtx.pmem0
      rw [hm]
      rfl)
    rw [checkErr, if_neg (not_not.mpr rfl), TrCtx.pmem0, hm] at hlast
    have hresult := (hlast fun _ other hmem => by
      rcases List.mem_cons.mp hmem with h | hmem
      · cases h
      · cases List.mem_singleton.mp hmem).2.1
    rcases List.mem_cons.mp hresult with h | hresult
    · cases h
    · cases List.mem_singleton.mp hresult
  · intro hnone
    apply propagates_checked
    · intro _
      exact Quiet.propagates (quiet_pmem0.bind fun _ _ => quiet_serdesWrite.bind fun _ _ =>
        quiet_serdesWrite.bind fun _ _ => Access.safe_pure _)
    · intro hok res hres
      rw [TrCtx.pmem0, hnone hok] at hres
      cases hres

/-- The result is success whatever the library answers. -/
theorem propagates_pathOpen {err : Errno} {fd : BitVec 32}
    (hanswer : e.pathOpen (ctx.i32 0) (ctx.i32 1) (range (ctx.i32 2) (ctx.i32 3)) ((ctx.i32 4).setWidth 16)
      (ctx.i64 5) (ctx.i64 6) ((ctx.i32 7).setWidth 16) = (err, fd)) :
    Propagates (pathOpen e ctx) ↔ (err ≠ esuccess → ctx.mem0 = none) := by
  have hshape : pathOpen e ctx = (hand ctx [range (ctx.i32 2) (ctx.i32 3)] >>= fun _ =>
      Access.touch (.answer err) >>= fun _ => stored ctx fd fun outFd =>
        serdesWrite 4 (size (ctx.i32 8)) outFd.toNat) := by
    unfold pathOpen
    dsimp only
    rw [hanswer]
    rfl
  rw [hshape]
  constructor
  · intro h herr
    by_contra hmem
    obtain ⟨m, hm⟩ := Option.ne_none_iff_exists'.mp hmem
    have hres := h esuccess (by
      unfold hand stored TrCtx.pmem0
      rw [hm]
      rfl) [.buffer (range (ctx.i32 2) (ctx.i32 3))] err _ (by
      unfold hand stored TrCtx.pmem0
      rw [hm]
      rfl)
    exact herr (hres fun hok => absurd hok herr).1.symm
  · intro hnone
    apply (quiet_hand _).propagates_bind
    intro a ha
    rw [propagates_answer]
    constructor
    · exact (quiet_stored fun _ => quiet_serdesWrite).propagates
    · intro res hres
      by_cases hok : err = esuccess
      · rw [hok]
        exact stored_answers hres
      · obtain ⟨_, hmem, -⟩ := bind_ending (c := ctx.pmem0) hres
        rw [TrCtx.pmem0, hnone hok] at hmem
        cases hmem

/-- What the library answers to `path_open`. -/
def pathOpened (e : Env) (ctx : TrCtx) : Errno :=
  (e.pathOpen (ctx.i32 0) (ctx.i32 1) (range (ctx.i32 2) (ctx.i32 3)) ((ctx.i32 4).setWidth 16) (ctx.i64 5) (ctx.i64 6)
    ((ctx.i32 7).setWidth 16)).1

/-- Calls that pass the answer on. Without a memory 0 the two exceptions never return. -/
def HostFn.Reports (e : Env) (ctx : TrCtx) : HostFn → Prop
  | environSizesGet => e.environSizesGet.1 = esuccess → ctx.mem0 = none
  | pathOpen => pathOpened e ctx ≠ esuccess → ctx.mem0 = none
  | _ => True

/-- Every wrapper but two reports what the library has answered. -/
theorem call_propagates (e : Env) (ctx : TrCtx) (f : HostFn) : Propagates (f.call e ctx) ↔ f.Reports e ctx := by
  cases f with
  | environSizesGet => exact propagates_environSizesGet
  | pathOpen => exact propagates_pathOpen rfl
  | argsGet => exact iff_of_true propagates_tableGet trivial
  | environGet => exact iff_of_true propagates_tableGet trivial
  | argsSizesGet =>
    apply iff_of_true _ trivial
    apply propagates_store
    intro _
    exact quiet_serdesWrite.bind fun _ _ => quiet_serdesWrite
  | fdPread => exact iff_of_true (propagates_vectored fun iovec => e.fdPread (ctx.i32 0) iovec (ctx.i64 3)) trivial
  | fdPwrite => exact iff_of_true (propagates_vectored fun iovec => e.fdPwrite (ctx.i32 0) iovec (ctx.i64 3)) trivial
  | fdRead => exact iff_of_true (propagates_vectored _) trivial
  | fdWrite => exact iff_of_true (propagates_vectored _) trivial
  | clockResGet => exact iff_of_true propagates_store_write trivial
  | clockTimeGet => exact iff_of_true propagates_store_write trivial
  | fdSeek => exact iff_of_true propagates_store_write trivial
  | fdTell => exact iff_of_true propagates_store_write trivial
  | fdFdstatGet => exact iff_of_true propagates_store_struct trivial
  | fdFilestatGet => exact iff_of_true propagates_store_struct trivial
  | fdPrestatGet => exact iff_of_true propagates_store_struct trivial
  | fdReaddir => exact iff_of_true (propagates_hand propagates_store_write) trivial
  | pathReadlink => exact iff_of_true (propagates_hand propagates_store_write) trivial
  | pathFilestatGet => exact iff_of_true (propagates_hand propagates_store_struct) trivial
  | pollOneoff => exact iff_of_true propagates_pollOneoff trivial
  | procExit =>
    apply iff_of_true _ trivial
    intro res h
    cases h
  | fdPrestatDirName => exact iff_of_true (propagates_hand (propagates_report _)) trivial
  | pathCreateDirectory => exact iff_of_true (propagates_hand (propagates_report _)) trivial
  | pathFilestatSetTimes => exact iff_of_true (propagates_hand (propagates_report _)) trivial
  | pathLink => exact iff_of_true (propagates_hand (propagates_report _)) trivial
  | pathRemoveDirectory => exact iff_of_true (propagates_hand (propagates_report _)) trivial
  | pathRename => exact iff_of_true (propagates_hand (propagates_report _)) trivial
  | pathSymlink => exact iff_of_true (propagates_hand (propagates_report _)) trivial
  | pathUnlinkFile => exact iff_of_true (propagates_hand (propagates_report _)) trivial
  | randomGet => exact iff_of_true (propagates_hand (propagates_report _)) trivial
  | fdAdvise | fdAllocate | fdClose | fdDatasync | fdFdstatSetFlags | fdFdstatSetRights | fdFilestatSetSize
  | fdFilestatSetTimes | fdRenumber | fdSync | procRaise | schedYield =>
    exact iff_of_true (propagates_report _) trivial
  | sockAccept | sockRecv | sockSend | sockShutdown => exact iff_of_true (quiet_finish _).propagates trivial

/-- A library that finds no file to open. -/
def noFile : Env := { (default : Env) with pathOpen := fun _ _ _ _ _ _ _ => (44, 0) }

/-- The guest is told that the file is open. -/
theorem pathOpen_noFile : ¬ Propagates (HostFn.pathOpen.call noFile (onePage [])) := by
  intro h
  have hnone := (propagates_pathOpen rfl).mp h (by decide)
  cases hnone

end Silverfir.Wasi
