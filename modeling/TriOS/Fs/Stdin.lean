import TriOS.Library.Ring
import TriOS.Library.Transition
import TriOS.Sync.Sem

/-!
# dev_stdin.c — the queue of the console input

The timer interrupt stores the characters that arrive, and any number of processes read them. A call of
`dev_stdin_read` holds the interrupts off except while it sleeps, so it runs in one piece up to there, and in
one piece again each time the process is woken and chosen to run.
-/

namespace TriOS
namespace Stdin

open Outcome Transition

/-- `STDIN_BUFSIZE` -/
def stdinBufsize : Nat := 4096

/-- `WT_KBD` -/
def wtKbd : UInt32 := 0x00000004 ||| wtInterrupted

/-- The `off_t` that the machine stores for `x`. -/
def toOff (x : Int) : Int :=
  x.bmod (2 ^ 64)

/-- An `int` as the `size_t` that it is converted to. -/
def toSize (x : Int) : Nat :=
  (x % 2 ^ 64).toNat

/-- The variables of the driver: the memory from `stdin_buffer` on, `p_rpos`, `p_wpos`, and the calls whose
`wait` is in `wait_queue`, in its order. -/
structure Driver where
  stdinBuffer : Int → UInt8
  rpos : Int
  wpos : Int
  waitQueue : List Nat

/-- Where a call of `dev_stdin_read` stands. A call that sleeps has its `wakeup_flags`, and so has one whose
process has been made runnable again. -/
inductive Status where
  | running
  | sleeping (wakeupFlags : UInt32)
  | woken (wakeupFlags : UInt32)
  | returned
  deriving DecidableEq, Repr

/-- A call of `dev_stdin_read`: its argument `len`, its variable `ret`, and what it has stored from `buf`
on. -/
structure Call where
  len : Nat
  ret : Int
  buf : List UInt8
  status : Status
  deriving Repr

/-- The driver and all calls that have been made, in order. -/
structure State where
  driver : Driver
  call : List Call

/-- `stdin_device_init` -/
def stdinDeviceInit (mem : Int → UInt8) : State :=
  { driver := { stdinBuffer := mem, rpos := 0, wpos := 0, waitQueue := [] }, call := [] }

/-- `wakeup_wait` -/
def wakeupWait (call : List Call) (k : Nat) (wakeupFlags : UInt32) : List Call :=
  call.modify k fun c => { c with status := .woken wakeupFlags }

/-- `wakeup_queue` -/
def wakeupQueue (s : State) (wakeupFlags : UInt32) : State :=
  { driver := { s.driver with waitQueue := [] }
    call := s.driver.waitQueue.foldl (fun call k => wakeupWait call k wakeupFlags) s.call }

/-- The part of `dev_stdin_write` on the buffer. -/
def storeChar (d : Driver) (c : UInt8) : Driver :=
  { d with
    stdinBuffer := Function.update d.stdinBuffer (d.wpos.tmod stdinBufsize) c
    wpos := if d.wpos - d.rpos < stdinBufsize then toOff (d.wpos + 1) else d.wpos }

/-- `dev_stdin_write` -/
def devStdinWrite (s : State) (c : UInt8) : State :=
  if c ≠ 0 then wakeupQueue { s with driver := storeChar s.driver c } wtKbd else s

/-- The loop of `dev_stdin_read` up to its end or up to where it has to sleep; the result says which. -/
def readLoop (len : Nat) : Nat → Driver → Int → List UInt8 → Outcome (Bool × Driver × Int × List UInt8)
  | bound, d, ret, buf =>
    if toSize ret < len then
      if d.rpos < d.wpos then
        match bound with
        | 0 => fuel
        | bound + 1 =>
            readLoop len bound { d with rpos := toOff (d.rpos + 1) } (toInt (ret + 1))
              (buf ++ [d.stdinBuffer (d.rpos.tmod stdinBufsize)])
      else done (false, d, ret, buf)
    else done (true, d, ret, buf)

/-- The loop run by call `k`, with `wait_current_set` where it has to sleep. -/
def runCall (s : State) (k : Nat) (c : Call) : Outcome State := do
  let (ended, d, ret, buf) ← readLoop c.len (s.driver.wpos - s.driver.rpos).toNat s.driver c.ret c.buf
  if ended then
    pure { driver := d, call := s.call.set k { c with ret := ret, buf := buf, status := .returned } }
  else
    pure { driver := { d with waitQueue := d.waitQueue ++ [k] }
           call := s.call.set k { c with ret := ret, buf := buf, status := .sleeping wtInterrupted } }

/-- `dev_stdin_read` up to its end or its first call of `schedule` -/
def devStdinRead (s : State) (len : Nat) : Outcome State :=
  let c : Call := { len := len, ret := 0, buf := [], status := .running }
  runCall { s with call := s.call ++ [c] } s.call.length c

/-- `dev_stdin_read` after a call of `schedule`, for a call that `wakeup_flags` woke -/
def devStdinResume (s : State) (k : Nat) (c : Call) (wakeupFlags : UInt32) : Outcome State :=
  let s := { s with driver := { s.driver with waitQueue := s.driver.waitQueue.erase k } }
  if wakeupFlags = wtKbd then runCall s k { c with status := .running }
  else pure { s with call := s.call.set k { c with status := .returned } }

/-- What happens to the driver: a character arrives, a process calls `dev_stdin_read`, a process that sleeps
is killed, and a process that was woken runs again. -/
inductive Event where
  | write (c : UInt8)
  | read (len : Nat)
  | kill (k : Nat)
  | resume (k : Nat)

/-- One event. -/
inductive Step : State → Event → State → Prop where
  | write {s : State} (c : UInt8) : Step s (.write c) (devStdinWrite s c)
  | read {s t : State} {len : Nat} (h : devStdinRead s len = done t) : Step s (.read len) t
  | kill {s : State} {k : Nat} {c : Call} {wakeupFlags : UInt32} (hc : s.call[k]? = some c)
      (hs : c.status = .sleeping wakeupFlags) :
      Step s (.kill k) { s with call := s.call.set k { c with status := .woken wakeupFlags } }
  | resume {s t : State} {k : Nat} {c : Call} {wakeupFlags : UInt32} (hc : s.call[k]? = some c)
      (hs : c.status = .woken wakeupFlags) (h : devStdinResume s k c wakeupFlags = done t) :
      Step s (.resume k) t

/-! ## What the calls are to deliver -/

/-- The characters that were accepted, and the ones that were handed to calls, each with its call. -/
structure Record where
  accepted : List UInt8
  handed : List (Nat × UInt8)

/-- What call `k` has stored. -/
def stored (s : State) (k : Nat) : List UInt8 :=
  ((s.call[k]?).map Call.buf).getD []

/-- A character is accepted unless it is NUL or finds the buffer full. -/
def accept (s : State) (c : UInt8) : List UInt8 :=
  if c ≠ 0 ∧ s.driver.wpos - s.driver.rpos < stdinBufsize then [c] else []

/-- What a step from `s` to `t` adds to the record for call `k`. -/
def handedTo (s t : State) (k : Nat) : List (Nat × UInt8) :=
  ((stored t k).drop (stored s k).length).map (k, ·)

/-- The record after a step. -/
def Record.after (r : Record) (s : State) (e : Event) (t : State) : Record :=
  match e with
  | .write c => { r with accepted := r.accepted ++ accept s c }
  | .read _ => { r with handed := r.handed ++ handedTo s t s.call.length }
  | .kill _ => r
  | .resume k => { r with handed := r.handed ++ handedTo s t k }

/-- The steps of the driver with the record beside it. -/
def Traced (p : State × Record) (e : Event) (q : State × Record) : Prop :=
  Step p.1 e q.1 ∧ q.2 = p.2.after p.1 e q.1

/-- The unread characters. -/
def unread (d : Driver) : List UInt8 :=
  Ring.contents stdinBufsize (fun i => d.stdinBuffer i) d.rpos.toNat (d.wpos - d.rpos).toNat

/-- The queue of the console input is sound: the positions are in range; the accepted characters are the ones
handed out, in order, followed by the unread ones; and each call has stored exactly what was handed to it and
counts it. -/
structure Sound (s : State) (r : Record) : Prop where
  nonneg : 0 ≤ s.driver.wpos - s.driver.rpos
  le_size : s.driver.wpos - s.driver.rpos ≤ stdinBufsize
  order : r.accepted = r.handed.map Prod.snd ++ unread s.driver
  buf : ∀ (k : Nat) (c : Call), s.call[k]? = some c → c.buf = (r.handed.filter (·.1 = k)).map Prod.snd
  ret : ∀ (k : Nat) (c : Call), s.call[k]? = some c → c.buf.length < 2 ^ 31 → c.ret = c.buf.length

/-- The condition on a step: a character that arrives finds room, and a position left for it, or is the same
as the one it overwrites. -/
def Fits (s : State) : Event → Prop
  | .write c => c ≠ 0 →
      (s.driver.wpos - s.driver.rpos < stdinBufsize ∧ s.driver.wpos + 1 < 2 ^ 63) ∨
        (stdinBufsize ≤ s.driver.wpos - s.driver.rpos ∧
          s.driver.stdinBuffer (s.driver.wpos.tmod stdinBufsize) = c)
  | _ => True

/-! ## The loop -/

variable {d : Driver} {s t : State} {r : Record} {len k n m i j bound : Nat} {c : Call} {ch : UInt8}
  {ret : Int} {buf : List UInt8}

/-- The place of a position that is not negative. -/
theorem tmod_place (n : Nat) : (n : Int).tmod stdinBufsize = (n % stdinBufsize : Nat) :=
  (Int.ofNat_tmod n stdinBufsize).symm

theorem toOff_natCast (hn : n < 2 ^ 63) : toOff n = n :=
  Int.bmod_eq_of_le (by omega) (by omega)

theorem toInt_add_one (n : Nat) : toInt (toInt n + 1) = toInt (n + 1 : Nat) := by
  simp only [toInt, Int.bmod_add_bmod, Nat.cast_add, Nat.cast_one]

theorem toInt_natCast (hn : n < 2 ^ 31) : toInt n = n :=
  Int.bmod_eq_of_le (by omega) (by omega)

/-- The loop stops when the call has its characters or none is left. -/
theorem readLoop_stop (bound : Nat) (buf : List UInt8) (hstop : ¬ (toSize ret < len ∧ d.rpos < d.wpos)) :
    ∃ ended, readLoop len bound d ret buf = done (ended, d, ret, buf) := by
  unfold readLoop
  by_cases hlen : toSize ret < len
  · exact ⟨false, by simp [hlen, mt (And.intro hlen) hstop]⟩
  · exact ⟨true, by simp [hlen]⟩

/-- The loop hands out the first unread characters, and the bound is enough. -/
theorem readLoop_spec (len m : Nat) (buf : List UInt8) (hr : d.rpos = i) (hw : d.wpos = j) (hle : i ≤ j) (hj : j < 2 ^ 63)
    (hbound : j - i ≤ bound) : ∃ ended n, n ≤ j - i ∧
      readLoop len bound d (toInt m) buf = done (ended, { d with rpos := (i + n : Nat) }, toInt (m + n : Nat),
        buf ++ Ring.contents stdinBufsize (fun x => d.stdinBuffer x) i n) := by
  induction bound generalizing d i m buf with
  | zero =>
      have hempty : ¬ (toSize (toInt m) < len ∧ d.rpos < d.wpos) := by omega
      obtain ⟨ended, hloop⟩ := readLoop_stop 0 buf hempty
      exact ⟨ended, 0, Nat.zero_le _, by simpa [← hr] using hloop⟩
  | succ bound ih =>
      by_cases hmore : toSize (toInt m) < len ∧ d.rpos < d.wpos
      · have hij : i < j := by omega
        have hnext : toOff (d.rpos + 1) = (i + 1 : Nat) := by
          rw [hr]
          exact toOff_natCast (n := i + 1) (by omega)
        obtain ⟨ended, n, hn, hloop⟩ := ih (d := { d with rpos := toOff (d.rpos + 1) }) (m + 1)
          (buf ++ [d.stdinBuffer (i % stdinBufsize : Nat)]) hnext hw hij (by omega)
        have hplace : d.rpos.tmod stdinBufsize = (i % stdinBufsize : Nat) := by
          rw [hr]
          exact tmod_place i
        refine ⟨ended, n + 1, by omega, ?_⟩
        rw [readLoop, if_pos hmore.1, if_pos hmore.2, toInt_add_one, hplace, hloop, Ring.contents_succ, List.append_assoc, Nat.add_right_comm i 1, Nat.add_right_comm m 1]
        rfl
      · obtain ⟨ended, hloop⟩ := readLoop_stop (bound + 1) buf hmore
        exact ⟨ended, 0, Nat.zero_le _, by simpa [← hr] using hloop⟩

/-! ## The invariant -/

/-- The invariant of the driver with its record. -/
structure Inv (s : State) (r : Record) : Prop where
  rpos : s.driver.rpos = r.handed.length
  wpos : s.driver.wpos = r.accepted.length
  le : r.handed.length ≤ r.accepted.length
  room : r.accepted.length ≤ r.handed.length + stdinBufsize
  range : r.accepted.length < 2 ^ 63
  order : r.accepted = r.handed.map Prod.snd ++ Ring.contents stdinBufsize (fun x => s.driver.stdinBuffer x)
    r.handed.length (r.accepted.length - r.handed.length)
  call : ∀ (k : Nat) (c : Call), s.call[k]? = some c →
    c.buf = (r.handed.filter (·.1 = k)).map Prod.snd ∧ c.ret = toInt c.buf.length
  known : ∀ x ∈ r.handed, x.1 < s.call.length

theorem inv_start (mem : Int → UInt8) : Inv (stdinDeviceInit mem) ⟨[], []⟩ := by
  constructor <;> simp [stdinDeviceInit]

theorem Inv.sound (h : Inv s r) : Sound s r := by
  have hle := h.le
  have hroom := h.room
  have hcount : s.driver.wpos - s.driver.rpos = (r.accepted.length - r.handed.length : Nat) := by
    rw [h.rpos, h.wpos]
    omega
  constructor
  · rw [hcount]
    exact Int.natCast_nonneg _
  · rw [hcount]
    omega
  · rw [unread, hcount, h.rpos, Int.toNat_natCast, Int.toNat_natCast]
    exact h.order
  · intro k c hc
    exact (h.call k c hc).1
  · intro k c hc hlen
    rw [(h.call k c hc).2]
    exact toInt_natCast hlen

/-- What is handed to one call is not handed to another. -/
theorem filter_handed (xs : List UInt8) (k i : Nat) :
    ((xs.map (k, ·)).filter (·.1 = i)).map Prod.snd = if k = i then xs else [] := by
  rw [List.filter_map, List.map_map]
  by_cases h : k = i
  · simp [h, Function.comp_def]
  · simp [h, Function.comp_def]

/-- A call that runs stores the first unread characters and moves nothing else of the buffer. -/
theorem runCall_run (c' : Call) (h : Inv s r) (hc : s.call[k]? = some c) (hbuf : c'.buf = c.buf)
    (hret : c'.ret = c.ret) : ∃ n t c'', n ≤ r.accepted.length - r.handed.length ∧ runCall s k c' = done t ∧
      t.call = s.call.set k c'' ∧
      c''.buf = c.buf ++ Ring.contents stdinBufsize (fun x => s.driver.stdinBuffer x) r.handed.length n ∧
      c''.ret = toInt (c.buf.length + n : Nat) ∧ t.driver.stdinBuffer = s.driver.stdinBuffer ∧
      t.driver.wpos = s.driver.wpos ∧ t.driver.rpos = (r.handed.length + n : Nat) := by
  have hbound : (s.driver.wpos - s.driver.rpos).toNat = r.accepted.length - r.handed.length := by
    rw [h.rpos, h.wpos]
    omega
  obtain ⟨ended, n, hn, hloop⟩ := readLoop_spec c'.len c.buf.length c.buf h.rpos h.wpos h.le h.range (le_refl _)
  rw [← hbound, ← (h.call k c hc).2] at hloop
  generalize hret' : toInt (c.buf.length + n : Nat) = ret' at hloop
  unfold runCall
  rw [hbuf, hret, hloop, bind_done]
  cases ended with
  | true => exact ⟨n, _, { c' with ret := ret', buf := _, status := .returned }, hn, rfl, rfl, rfl, hret'.symm,
      rfl, rfl, rfl⟩
  | false => exact ⟨n, _, { c' with ret := ret', buf := _, status := .sleeping wtInterrupted }, hn, rfl, rfl, rfl,
      hret'.symm, rfl, rfl, rfl⟩

/-- A call that runs keeps the invariant. -/
theorem runCall_spec (c' : Call) (h : Inv s r) (hc : s.call[k]? = some c) (hbuf : c'.buf = c.buf)
    (hret : c'.ret = c.ret) : ∃ t, runCall s k c' = done t ∧
      Inv t { r with handed := r.handed ++ handedTo s t k } := by
  have hk : k < s.call.length := (List.getElem?_eq_some_iff.1 hc).1
  have hcbuf := (h.call k c hc).1
  obtain ⟨n, t, c'', hn, hrun, hcall, hbuf', hret', hmem, hwpos, hrpos⟩ := runCall_run c' h hc hbuf hret
  generalize hxs : Ring.contents stdinBufsize (fun x => s.driver.stdinBuffer x) r.handed.length n = xs at hbuf'
  have hlen : xs.length = n := by simp [← hxs]
  have hto : handedTo s t k = xs.map (k, ·) := by
    have hstored : stored s k = c.buf := by
      rw [stored, hc]
      rfl
    have hstored' : stored t k = c.buf ++ xs := by
      rw [stored, hcall, List.getElem?_set_self hk]
      exact hbuf'
    rw [handedTo, hstored, hstored', List.drop_left]
  have hcount : (r.handed ++ handedTo s t k).length = r.handed.length + n := by simp [hto, hlen]
  have hle := h.le
  refine ⟨t, hrun, ?_, ?_, ?_, ?_, h.range, ?_, ?_, ?_⟩
  · rw [hcount, hrpos]
  · rw [hwpos, h.wpos]
  · show (r.handed ++ handedTo s t k).length ≤ r.accepted.length
    rw [hcount]
    omega
  · show r.accepted.length ≤ (r.handed ++ handedTo s t k).length + stdinBufsize
    have hroom := h.room
    rw [hcount]
    omega
  · have hsplit : r.accepted.length - r.handed.length = n + (r.accepted.length - (r.handed.length + n)) := by
      omega
    have horder := h.order
    rw [hsplit, Ring.contents_add, hxs] at horder
    rw [hcount, hto, List.map_append, List.map_map, hmem]
    simpa [Function.comp_def] using horder
  · intro i ci hci
    rw [hcall, List.getElem?_set] at hci
    rw [hto, List.filter_append, List.map_append, filter_handed]
    by_cases hi : k = i
    · subst hi
      rw [if_pos rfl, if_pos hk] at hci
      cases hci
      exact ⟨by rw [if_pos rfl, hbuf', hcbuf], by rw [hret', hbuf', List.length_append, hlen]⟩
    · rw [if_neg hi] at hci
      simpa [if_neg hi] using h.call i ci hci
  · intro x hx
    rw [hcall, List.length_set]
    rcases List.mem_append.1 hx with hx | hx
    · exact h.known x hx
    · rw [hto] at hx
      obtain ⟨_, _, rfl⟩ := List.mem_map.1 hx
      exact hk

/-! ## The events -/

/-- The calls `ys` are the calls `xs` but for where they stand. -/
def SameCalls (xs ys : List Call) : Prop :=
  ys.length = xs.length ∧
    ∀ (k : Nat) (c : Call), ys[k]? = some c → ∃ c', xs[k]? = some c' ∧ c.buf = c'.buf ∧ c.ret = c'.ret

theorem SameCalls.refl (xs : List Call) : SameCalls xs xs :=
  ⟨rfl, fun _ c hc => ⟨c, hc, rfl, rfl⟩⟩

theorem SameCalls.trans {xs ys zs : List Call} (h : SameCalls xs ys) (h' : SameCalls ys zs) : SameCalls xs zs := by
  refine ⟨h'.1.trans h.1, fun k c hc => ?_⟩
  obtain ⟨c', hc', hbuf, hret⟩ := h'.2 k c hc
  obtain ⟨c'', hc'', hbuf', hret'⟩ := h.2 k c' hc'
  exact ⟨c'', hc'', hbuf.trans hbuf', hret.trans hret'⟩

theorem SameCalls.set {xs : List Call} {st : Status} (hc : xs[k]? = some c) :
    SameCalls xs (xs.set k { c with status := st }) := by
  refine ⟨List.length_set, fun i ci hci => ?_⟩
  rw [List.getElem?_set] at hci
  by_cases hi : k = i
  · subst hi
    rw [if_pos rfl, if_pos (List.getElem?_eq_some_iff.1 hc).1] at hci
    cases hci
    exact ⟨c, hc, rfl, rfl⟩
  · rw [if_neg hi] at hci
    exact ⟨ci, hci, rfl, rfl⟩

theorem sameCalls_wakeupWait (xs : List Call) (k : Nat) (wakeupFlags : UInt32) :
    SameCalls xs (wakeupWait xs k wakeupFlags) := by
  refine ⟨List.length_modify _ _ _, fun i ci hci => ?_⟩
  rw [wakeupWait, List.getElem?_modify] at hci
  obtain ⟨c, hc, rfl⟩ := Option.map_eq_some_iff.1 hci
  refine ⟨c, hc, ?_⟩
  by_cases hi : k = i
  · simp [hi]
  · simp [hi]

theorem sameCalls_wakeupQueue (s : State) (wakeupFlags : UInt32) :
    SameCalls s.call (wakeupQueue s wakeupFlags).call := by
  unfold wakeupQueue
  dsimp only
  generalize s.call = xs
  induction s.driver.waitQueue generalizing xs with
  | nil => exact SameCalls.refl xs
  | cons k ks ih => exact (sameCalls_wakeupWait xs k wakeupFlags).trans (ih _)

/-- Only the positions, the buffer and what the calls have stored count. -/
theorem Inv.congr (h : Inv s r) (hmem : t.driver.stdinBuffer = s.driver.stdinBuffer)
    (hrpos : t.driver.rpos = s.driver.rpos) (hwpos : t.driver.wpos = s.driver.wpos)
    (hcalls : SameCalls s.call t.call) : Inv t r := by
  refine ⟨hrpos.trans h.rpos, hwpos.trans h.wpos, h.le, h.room, h.range, ?_, fun k c hc => ?_, fun x hx => ?_⟩
  · rw [hmem]
    exact h.order
  · obtain ⟨c', hc', hbuf, hret⟩ := hcalls.2 k c hc
    rw [hbuf, hret]
    exact h.call k c' hc'
  · rw [hcalls.1]
    exact h.known x hx

/-- The place of the next character among the places of the ring. -/
theorem storeChar_buffer (h : Inv s r) (ch : UInt8) :
    (fun x : Nat => (storeChar s.driver ch).stdinBuffer x) =
      Function.update (fun x : Nat => s.driver.stdinBuffer x) (r.accepted.length % stdinBufsize) ch := by
  unfold storeChar
  dsimp only
  rw [h.wpos, tmod_place]
  exact Function.update_comp_eq_of_injective _ Nat.cast_injective _ _

/-- A character that finds room. -/
theorem Inv.push (h : Inv s r) (hroom : s.driver.wpos - s.driver.rpos < stdinBufsize)
    (hrange : s.driver.wpos + 1 < 2 ^ 63) :
    Inv { s with driver := storeChar s.driver ch } { r with accepted := r.accepted ++ [ch] } := by
  have hle := h.le
  rw [h.wpos] at hrange
  have hnew : (storeChar s.driver ch).wpos = (r.accepted.length + 1 : Nat) := by
    unfold storeChar
    dsimp only
    rw [if_pos hroom, h.wpos, ← Nat.cast_succ]
    exact toOff_natCast (by omega)
  rw [h.wpos, h.rpos] at hroom
  have hsplit : r.accepted.length = r.handed.length + (r.accepted.length - r.handed.length) := by omega
  have hmore : r.accepted.length + 1 - r.handed.length = r.accepted.length - r.handed.length + 1 := by omega
  refine ⟨h.rpos, ?_, ?_, ?_, ?_, ?_, h.call, h.known⟩
  · simpa using hnew
  · simp only [List.length_append, List.length_singleton]
    omega
  · simp only [List.length_append, List.length_singleton]
    omega
  · simp only [List.length_append, List.length_singleton]
    omega
  · have hfit : r.accepted.length - r.handed.length < stdinBufsize := by omega
    have hpush := Ring.contents_push (fun x : Nat => s.driver.stdinBuffer x) r.handed.length ch hfit
    rw [← hsplit] at hpush
    rw [List.length_append, List.length_singleton, hmore, storeChar_buffer h, hpush, ← List.append_assoc, ← h.order]

/-- A character that finds the buffer full and is the same as the one that it overwrites. -/
theorem storeChar_same (hfull : (stdinBufsize : Int) ≤ s.driver.wpos - s.driver.rpos)
    (hch : s.driver.stdinBuffer (s.driver.wpos.tmod stdinBufsize) = ch) : storeChar s.driver ch = s.driver := by
  unfold storeChar
  rw [if_neg (by omega), ← hch, Function.update_eq_self]

theorem devStdinWrite_inv (h : Inv s r) (hfits : Fits s (.write ch)) :
    Inv (devStdinWrite s ch) { r with accepted := r.accepted ++ accept s ch } := by
  unfold devStdinWrite accept
  by_cases hch : ch = 0
  · simpa [hch] using h
  · rw [if_pos hch]
    refine Inv.congr (s := { s with driver := storeChar s.driver ch }) ?_ rfl rfl rfl (sameCalls_wakeupQueue _ _)
    rcases hfits hch with ⟨hroom, hrange⟩ | ⟨hfull, hsame⟩
    · rw [if_pos ⟨hch, hroom⟩]
      exact h.push hroom hrange
    · rw [if_neg (by omega), List.append_nil, storeChar_same hfull hsame]
      exact h

/-- What is handed out depends on what the calls have stored before and after. -/
theorem handedTo_congr {s' : State} (hs : stored s' k = stored s k) : handedTo s' t k = handedTo s t k := by
  unfold handedTo
  rw [hs]

theorem devStdinRead_inv (h : Inv s r) (hread : devStdinRead s len = done t) :
    Inv t { r with handed := r.handed ++ handedTo s t s.call.length } := by
  let c : Call := { len := len, ret := 0, buf := [], status := .running }
  have hnone : r.handed.filter (·.1 = s.call.length) = [] := by
    rw [List.filter_eq_nil_iff]
    intro x hx
    simpa using (h.known x hx).ne
  have hnew : Inv { s with call := s.call ++ [c] } r := by
    refine ⟨h.rpos, h.wpos, h.le, h.room, h.range, h.order, fun k ck hck => ?_, fun x hx => ?_⟩
    · rcases lt_or_ge k s.call.length with hk | hk
      · rw [List.getElem?_append_left hk] at hck
        exact h.call k ck hck
      · rw [List.getElem?_append_right hk, List.getElem?_singleton] at hck
        split at hck
        · cases hck
          have hk' : k = s.call.length := by omega
          rw [hk', hnone]
          exact ⟨rfl, (toInt_natCast (n := 0) (by omega)).symm⟩
        · cases hck
    · rw [List.length_append]
      exact Nat.lt_add_right _ (h.known x hx)
  obtain ⟨t', hrun, ht⟩ := runCall_spec (k := s.call.length) (c := c) c hnew (by simp) rfl rfl
  have hrun' : devStdinRead s len = done t' := hrun
  cases hrun'.symm.trans hread
  rwa [handedTo_congr (s := s) (by simp [stored, c])] at ht

theorem kill_inv (h : Inv s r) {st : Status} (hc : s.call[k]? = some c) :
    Inv { s with call := s.call.set k { c with status := st } } r :=
  h.congr rfl rfl rfl (SameCalls.set hc)

theorem devStdinResume_inv {wakeupFlags : UInt32} (h : Inv s r) (hc : s.call[k]? = some c)
    (hrun : devStdinResume s k c wakeupFlags = done t) :
    Inv t { r with handed := r.handed ++ handedTo s t k } := by
  obtain ⟨hk, hget⟩ := List.getElem?_eq_some_iff.1 hc
  unfold devStdinResume at hrun
  dsimp only at hrun
  by_cases hkbd : wakeupFlags = wtKbd
  · rw [if_pos hkbd] at hrun
    have hdel : Inv { s with driver := { s.driver with waitQueue := s.driver.waitQueue.erase k } } r :=
      h.congr rfl rfl rfl (SameCalls.refl _)
    obtain ⟨t', hrun', ht⟩ := runCall_spec { c with status := .running } hdel hc rfl rfl
    cases hrun'.symm.trans hrun
    exact ht
  · rw [if_neg hkbd] at hrun
    cases hrun
    have hto : handedTo s ⟨{ s.driver with waitQueue := s.driver.waitQueue.erase k },
        s.call.set k { c with status := .returned }⟩ k = [] := by
      simp [handedTo, stored, hk, hget]
    rw [hto, List.append_nil]
    exact h.congr rfl rfl rfl (SameCalls.set hc)

/-- One step that meets the condition keeps the invariant. -/
theorem step_inv {p q : State × Record} {e : Event} (h : Inv p.1 p.2) (hstep : Traced p e q)
    (hfits : Fits p.1 e) : Inv q.1 q.2 := by
  obtain ⟨s, r⟩ := p
  obtain ⟨t, r'⟩ := q
  obtain ⟨hs, hr⟩ := hstep
  dsimp only at h hs hr hfits ⊢
  subst hr
  cases hs with
  | write c => exact devStdinWrite_inv h hfits
  | read hread => exact devStdinRead_inv h hread
  | kill hc _ => exact kill_inv h hc
  | resume hc _ hrun => exact devStdinResume_inv h hc hrun

theorem run_inv {mem : Int → UInt8} {es : List Event}
    (hrun : Run (Guarded (fun p e => Fits p.1 e) Traced) (stdinDeviceInit mem, ⟨[], []⟩) es (s, r)) : Inv s r :=
  hrun.invariant (fun p => Inv p.1 p.2) (fun _ _ _ hp hstep => step_inv hp hstep.2 hstep.1) (inv_start mem)

/-- The calls of the driver return: in a state that keeps the invariant a read does not run out of its
bound. -/
theorem devStdinRead_returns (h : Inv s r) (len : Nat) : ∃ t, devStdinRead s len = done t := by
  have hle := h.le
  obtain ⟨ended, n, -, hloop⟩ := readLoop_spec len 0 [] h.rpos h.wpos h.le h.range (le_refl _)
  have hbound : (s.driver.wpos - s.driver.rpos).toNat = r.accepted.length - r.handed.length := by
    rw [h.rpos, h.wpos]
    omega
  have hzero : toInt ((0 : Nat) : Int) = 0 := toInt_natCast (by omega)
  rw [← hbound, hzero] at hloop
  unfold devStdinRead runCall
  dsimp only
  rw [hloop]
  cases ended with
  | true => exact ⟨_, rfl⟩
  | false => exact ⟨_, rfl⟩

/-- A write that does not meet the condition leaves the queue unsound. -/
theorem write_unsound (h : Inv s r) (hfits : ¬ Fits s (.write ch)) :
    ¬ Sound (devStdinWrite s ch) (r.after s (.write ch) (devStdinWrite s ch)) := by
  intro hsound
  have hle := h.le
  have hcount : s.driver.wpos - s.driver.rpos = (r.accepted.length - r.handed.length : Nat) := by
    rw [h.rpos, h.wpos]
    omega
  simp only [Fits, Classical.not_imp, not_or, not_and] at hfits
  obtain ⟨hch, hroom, hsame⟩ := hfits
  have hwrite : (devStdinWrite s ch).driver = { storeChar s.driver ch with waitQueue := [] } := by
    simp [devStdinWrite, hch, wakeupQueue]
  by_cases hfull : s.driver.wpos - s.driver.rpos < stdinBufsize
  · -- The position wraps.
    have hlast : (r.accepted.length : Int) + 1 = 2 ^ 63 := by
      have hrange := h.range
      have hnot := hroom hfull
      rw [h.wpos] at hnot
      omega
    have hnonneg := hsound.nonneg
    have hwpos : (storeChar s.driver ch).wpos = toOff (2 ^ 63) := by
      unfold storeChar
      dsimp only
      rw [if_pos hfull, h.wpos, hlast]
    have hwrap : toOff (2 ^ 63) = -2 ^ 63 := by decide
    rw [hwrite] at hnonneg
    dsimp only at hnonneg
    have hrpos : (storeChar s.driver ch).rpos = r.handed.length := h.rpos
    rw [hwpos, hwrap, hrpos] at hnonneg
    omega
  · -- The first unread character is overwritten.
    have horder := hsound.order
    have hlen : r.accepted.length - r.handed.length = 4095 + 1 := by
      have hroom := h.room
      rw [hcount] at hfull
      unfold stdinBufsize at hroom hfull
      omega
    have hacc : accept s ch = [] := if_neg fun hc => hfull hc.2
    have hsum : r.accepted.length = r.handed.length + (4095 + 1) := by omega
    have hold := h.order
    rw [hlen, Ring.contents_succ] at hold
    have hmem : (fun x : Nat => (storeChar s.driver ch).stdinBuffer x) = Function.update
        (fun x : Nat => s.driver.stdinBuffer x) ((r.handed.length + (4095 + 1)) % (4095 + 1)) ch := by
      rw [storeChar_buffer h, hsum]
      rfl
    have hpos : (storeChar s.driver ch).wpos = s.driver.wpos := if_neg hfull
    have hrpos : (storeChar s.driver ch).rpos = s.driver.rpos := rfl
    have hunread : unread { storeChar s.driver ch with waitQueue := [] } =
        ch :: Ring.contents stdinBufsize (fun x => s.driver.stdinBuffer x) (r.handed.length + 1) 4095 := by
      unfold unread
      dsimp only
      rw [hpos, hrpos, hcount, h.rpos, Int.toNat_natCast, Int.toNat_natCast, hlen, hmem]
      exact Ring.contents_overwrite
    simp only [Record.after, hacc, List.append_nil, hwrite, hunread] at horder
    rw [horder] at hold
    have hhead := (List.cons.inj (List.append_cancel_left hold)).1
    refine hsame (by omega) ?_
    rw [h.wpos, tmod_place, hhead]
    congr 2
    unfold stdinBufsize
    omega

/-! ## Whole runs -/

/-- The queue of the console input is sound in every state of a run in which each character that arrives finds
room or equals the one it overwrites; and any other character would make it unsound. -/
theorem stdin_queue {mem : Int → UInt8} {es : List Event}
    (hrun : Run (Guarded (fun p e => Fits p.1 e) Traced) (stdinDeviceInit mem, ⟨[], []⟩) es (s, r)) :
    Sound s r ∧ ∀ c, Sound (devStdinWrite s c) (r.after s (.write c) (devStdinWrite s c)) ↔ Fits s (.write c) := by
  have h := run_inv hrun
  refine ⟨h.sound, fun c => ⟨fun hsound => ?_, fun hfits => (devStdinWrite_inv h hfits).sound⟩⟩
  by_contra hfits
  exact write_unsound h hfits hsound

/-- A reader waits for a character, is woken by it and gets it. -/
theorem stdin_queue_wait : ∃ s r, Sound s r ∧ r.handed = [(0, 97)] ∧ stored s 0 = [97] := by
  let s₀ : State := stdinDeviceInit fun _ => 0
  let s₁ : State :=
    { driver := { s₀.driver with waitQueue := [0] }
      call := [{ len := 1, ret := 0, buf := [], status := .sleeping wtInterrupted }] }
  let s₂ : State := devStdinWrite s₁ 97
  let s₃ : State :=
    { driver := { s₂.driver with rpos := 1 }
      call := [{ len := 1, ret := 1, buf := [97], status := .returned }] }
  let r₁ : Record := Record.after ⟨[], []⟩ s₀ (.read 1) s₁
  let r₂ : Record := r₁.after s₁ (.write 97) s₂
  let r₃ : Record := r₂.after s₂ (.resume 0) s₃
  let step := Guarded (fun p e => Fits p.1 e) Traced
  have hread : step (s₀, ⟨[], []⟩) (.read 1) (s₁, r₁) := ⟨trivial, Step.read rfl, rfl⟩
  have hwrite : step (s₁, r₁) (.write 97) (s₂, r₂) := ⟨fun _ => Or.inl (by decide), Step.write 97, rfl⟩
  have hresume : step (s₂, r₂) (.resume 0) (s₃, r₃) := ⟨trivial, Step.resume rfl rfl rfl, rfl⟩
  exact ⟨s₃, r₃, (stdin_queue (Run.snoc (Run.snoc (Run.snoc Run.nil hread) hwrite) hresume)).1, by decide,
    by decide⟩

/-- Up to the size of the buffer every character finds room. -/
theorem run_fill (mem : Int → UInt8) (n : Nat) (hn : n ≤ stdinBufsize) :
    ∃ s r, Run (Guarded (fun p e => Fits p.1 e) Traced) (stdinDeviceInit mem, ⟨[], []⟩)
      (List.replicate n (.write 97)) (s, r) ∧ r.handed = [] ∧ r.accepted = List.replicate n 97 := by
  induction n with
  | zero => exact ⟨_, _, Run.nil, rfl, rfl⟩
  | succ n ih =>
      obtain ⟨s, r, hrun, hhanded, haccepted⟩ := ih (by omega)
      have h := run_inv hrun
      have hcount : s.driver.wpos = n ∧ s.driver.rpos = 0 := by
        rw [h.wpos, h.rpos, haccepted, hhanded, List.length_replicate]
        exact ⟨rfl, rfl⟩
      have hsize : stdinBufsize = 4096 := rfl
      have hroom : s.driver.wpos - s.driver.rpos < stdinBufsize := by omega
      refine ⟨devStdinWrite s 97, r.after s (.write 97) (devStdinWrite s 97), ?_, hhanded, ?_⟩
      · have hfits : Fits s (.write 97) := fun _ => Or.inl ⟨hroom, by omega⟩
        rw [List.replicate_succ']
        exact Run.snoc hrun ⟨hfits, Step.write 97, rfl⟩
      · show r.accepted ++ accept s 97 = List.replicate (n + 1) 97
        rw [accept, if_pos ⟨by decide, hroom⟩, haccepted, List.replicate_succ']

/-- A character that arrives at a full buffer takes the place of the first unread one. -/
theorem stdin_queue_overrun : ∃ es s r,
    Run Traced (stdinDeviceInit fun _ => 0, ⟨[], []⟩) (es ++ [.write 98]) (s, r) ∧ ¬ Sound s r := by
  obtain ⟨s, r, hrun, hhanded, haccepted⟩ := run_fill (fun _ => 0) stdinBufsize le_rfl
  have h := run_inv hrun
  refine ⟨_, devStdinWrite s 98, r.after s (.write 98) (devStdinWrite s 98),
    Run.snoc (hrun.mono fun _ _ _ hstep => hstep.2) ⟨Step.write 98, rfl⟩, write_unsound h ?_⟩
  have horder := h.order
  rw [hhanded, haccepted, List.length_replicate] at horder
  have hwpos : s.driver.wpos = stdinBufsize := by
    rw [h.wpos, haccepted, List.length_replicate]
  have hrpos : s.driver.rpos = 0 := by
    rw [h.rpos, hhanded]
    rfl
  intro hfits
  rcases hfits (by decide) with ⟨hroom, -⟩ | ⟨-, hsame⟩
  · omega
  · have hfirst : s.driver.stdinBuffer 0 = 97 := by
      have hsize : stdinBufsize = 4095 + 1 := rfl
      rw [List.map_nil, List.nil_append, List.length_nil, Nat.sub_zero, hsize, List.replicate_succ,
        Ring.contents_succ] at horder
      exact (List.cons.inj horder).1.symm
    rw [hwpos, tmod_place, Nat.mod_self] at hsame
    exact absurd (hfirst.symm.trans hsame) (by decide)

end Stdin
end TriOS
