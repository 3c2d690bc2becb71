import Aiotc.Library.Run
import Aiotc.Share.Json
import Aiotc.Share.QueueCommon

-- Requests that wait for an acknowledgement, and the pointer that travels with them: `msgSend` puts
-- the address of its ack word into the request, the receiver sends it back, and the thread of the
-- caller's process writes through it. A process is known by the key of its message queue.

namespace Msg

def MSG_BUF_LEN : ℕ :=
  256

-- `call` tells which request of the run the message is, or answers. The program does not know it.
structure MsgBuf where
  key : Int
  ptr : Option Addr
  buf : CStr
  call : ℕ

-- The allocated ack words, each with the request it was allocated for.
structure Word where
  call : ℕ
  ack : Bool := false

structure Args where
  buf : CStr
  sendkey : Int
  recvKey : Int
  recvTimeout : Int

inductive Pc
  | send (attempNum : ℕ)
  | wait (wait : Int)
  | free
  | done
  deriving DecidableEq

structure Call where
  args : Args
  ack : Option Addr
  pc : Pc

structure Thread where
  key : Int
  msg : Option MsgBuf := none

-- An acknowledgement that was written: the request it answers, and the request that the word was
-- allocated for at this time, if any.
structure Write where
  call : ℕ
  word : Option ℕ
  deriving DecidableEq

-- `queue` are the messages on the way, each with the key of its queue. `tasks` and `writes` record
-- what the threads have done.
structure State where
  heap : Int → Addr → Option Word := fun _ _ => none
  calls : List Call := []
  queue : List (Int × MsgBuf) := []
  threads : List Thread := []
  tasks : List MsgBuf := []
  writes : List Write := []

def State.start (keys : List Int) : State :=
  { threads := keys.map ({ key := · }) }

def State.store (key : Int) (a : Addr) (w : Option Word) (s : State) : State :=
  { s with heap := fun k b => if k = key ∧ b = a then w else s.heap k b }

def State.setPc (n : ℕ) (c : Call) (pc : Pc) (s : State) : State :=
  { s with calls := s.calls.set n { c with pc := pc } }

inductive Sent
  | ok
  | again
  | failed

-- `malloc` gives an address that no other ack word of the process has.
def msgSend (args : Args) (malloc : Option Addr) (s : State) : Option State :=
  if args.recvKey = 0 then
    some { s with calls := s.calls ++ [{ args := args, ack := none, pc := .send 3 }] }
  else
    match malloc with
    | none   => some { s with calls := s.calls ++ [{ args := args, ack := none, pc := .done }] }
    | some a =>
      match s.heap args.recvKey a with
      | some _ => none
      | none   =>
        let s' := s.store args.recvKey a (some { call := s.calls.length })
        some { s' with calls := s.calls ++ [{ args := args, ack := some a, pc := .send 3 }] }

-- `msgsnd` is told the length of `buf` for that of the whole message, so that the 16 bytes of `key`
-- and `ptr` are missing at the end of `buf`.
def Call.msgBuf (n : ℕ) (c : Call) : MsgBuf where
  key := c.args.recvKey
  ptr := c.ack
  buf := strncpy (MSG_BUF_LEN - 16) c.args.buf
  call := n

def Call.afterSend (c : Call) : Pc :=
  if c.args.recvKey = 0 then .free else .wait (c.args.recvTimeout * 10)

def msgsnd (n : ℕ) (ret : Sent) (s : State) : Option State := do
  let c ← s.calls[n]?
  match c.pc, ret with
  | .send _, .ok                  => some { s.setPc n c c.afterSend with
      queue := s.queue ++ [(c.args.sendkey, c.msgBuf n)] }
  | .send (attempNum + 1), .again => some (s.setPc n c (.send attempNum))
  | .send 0, .again               => some (s.setPc n c c.afterSend)
  | .send _, .failed              => some (s.setPc n c c.afterSend)
  | _, _                          => none

-- One look at the ack word.
def poll (n : ℕ) (s : State) : Option State := do
  let c ← s.calls[n]?
  match c.pc, c.ack with
  | .wait wait, some a =>
    if (s.heap c.args.recvKey a).any Word.ack ∨ wait = 0 then
      some (s.setPc n c .free)
    else
      some (s.setPc n c (.wait (wait - 1)))
  | _, _ => none

def free (n : ℕ) (s : State) : Option State := do
  let c ← s.calls[n]?
  match c.pc, c.ack with
  | .free, none   => some (s.setPc n c .done)
  | .free, some a => some ((s.store c.args.recvKey a none).setPc n c .done)
  | _, _          => none

def msgSendAck (m : MsgBuf) (sent : Bool) (s : State) : State :=
  if sent then
    { s with queue := s.queue ++ [(m.key, { key := 0, ptr := m.ptr, buf := [], call := m.call })] }
  else
    s

-- The first message of the queue.
def msgrcv (j : ℕ) (s : State) : Option State := do
  let th ← s.threads[j]?
  let (_, m) ← s.queue.find? (·.1 = th.key)
  match th.msg with
  | some _ => none
  | none   => some { s with
      queue := s.queue.eraseP (·.1 = th.key)
      threads := s.threads.set j { th with msg := some m } }

def State.writeAck (key : Int) (a : Addr) (call : ℕ) (s : State) : State :=
  let w := s.heap key a
  { s.store key a (w.map ({ · with ack := true })) with
    writes := s.writes ++ [{ call := call, word := w.map Word.call }] }

-- What `msgThread` does with a message.
def msgThread (j : ℕ) (sent : Bool) (s : State) : Option State := do
  let th ← s.threads[j]?
  let m ← th.msg
  let s' := { s with threads := s.threads.set j { th with msg := none } }
  match m.ptr, m.key with
  | some a, 0 => some (s'.writeAck th.key a m.call)
  | _, _      =>
    let s' := { s' with tasks := s.tasks ++ [m] }
    some (if m.key ≠ 0 then msgSendAck m sent s' else s')

inductive Label
  | msgSend (args : Args) (malloc : Option Addr)
  | msgsnd (n : ℕ) (ret : Sent)
  | poll (n : ℕ)
  | free (n : ℕ)
  | msgrcv (j : ℕ)
  | msgThread (j : ℕ) (sent : Bool)
  | lose (i : ℕ)

def exec : Label → State → Option State
  | .msgSend args malloc => msgSend args malloc
  | .msgsnd n ret        => msgsnd n ret
  | .poll n              => poll n
  | .free n              => free n
  | .msgrcv j            => msgrcv j
  | .msgThread j sent    => msgThread j sent
  | .lose i              => fun s => some { s with queue := s.queue.eraseIdx i }

def Step (s : State) (l : Label) (s' : State) : Prop :=
  exec l s = some s'

-- Each acknowledgement was written into the word of the request it answers, and where a word says
-- that the request was answered, it was.
structure Safe (s : State) : Prop where
  written  : ∀ x ∈ s.writes, x.word = some x.call
  answered : ∀ key a w, s.heap key a = some w → w.ack → ∃ m ∈ s.tasks, m.call = w.call

-- The messages that are on the way to a key or were received there.
def State.pending (s : State) : List (Int × MsgBuf) :=
  s.queue ++ s.threads.filterMap fun th => th.msg.map (th.key, ·)

-- No message that carries the address of an ack word is on the way when the word is freed.
def Settled (s : State) : Label → Prop
  | .free n => ∀ x ∈ s.pending, x.2.ptr ≠ none → x.2.call ≠ n
  | _       => True

instance (s : State) : (l : Label) → Decidable (Settled s l)
  | .free _                                                          =>
    inferInstanceAs (Decidable (∀ _ ∈ _, _))
  | .msgSend _ _ | .msgsnd _ _ | .poll _ | .msgrcv _ | .msgThread _ _ | .lose _ => .isTrue trivial

-- The request has not returned, and its ack word is at the address.
def Live (s : State) (n : ℕ) (key : Int) (a : Addr) : Prop :=
  ∃ c, s.calls[n]? = some c ∧ c.pc ≠ .done ∧ c.args.recvKey = key ∧ c.ack = some a

-- Where the message carries an address, it is that of the ack word of its request, and it goes back
-- to the process that has the word when the request has been handled.
def Carries (s : State) (k : Int) (m : MsgBuf) : Prop :=
  ∀ a, m.ptr = some a → ∃ key, Live s m.call key a ∧
    (m.key = key ∨ m.key = 0 ∧ k = key ∧ ∃ r ∈ s.tasks, r.call = m.call)

structure Inv (s : State) : Prop where
  word    : ∀ n key a, Live s n key a → key ≠ 0 ∧ ∃ w, s.heap key a = some w ∧ w.call = n
  pending : ∀ k m, (k, m) ∈ s.pending → Carries s k m
  safe    : Safe s

section

variable {s s' : State} {n j i : ℕ} {c : Call} {pc : Pc} {k key : Int} {m : MsgBuf} {a : Addr}
  {l : Label}

@[simp]
theorem heap_store {w : Option Word} {b : Addr} :
    (s.store key a w).heap k b = if k = key ∧ b = a then w else s.heap k b :=
  rfl

theorem Live.unique {n' : ℕ} (h : Inv s) (hl : Live s n key a) (hl' : Live s n' key a) :
    n = n' := by
  obtain ⟨-, w, hw, rfl⟩ := h.word n key a hl
  obtain ⟨-, w', hw', rfl⟩ := h.word n' key a hl'
  cases hw.symm.trans hw'
  rfl

theorem live_setPc {n' : ℕ} (hc : s.calls[n]? = some c) (hd : c.pc ≠ .done) (hpc : pc ≠ .done) :
    Live (s.setPc n c pc) n' key a ↔ Live s n' key a := by
  by_cases hn : n = n'
  case pos =>
    subst hn
    obtain ⟨hlt, rfl⟩ := List.getElem?_eq_some_iff.mp hc
    simp [Live, State.setPc, hlt, hd, hpc]
  case neg => simp [Live, State.setPc, hn]

theorem live_done {n' : ℕ} (hc : s.calls[n]? = some c) :
    Live (s.setPc n c .done) n' key a ↔ Live s n' key a ∧ n' ≠ n := by
  by_cases hn : n = n'
  case pos =>
    subst hn
    obtain ⟨hlt, rfl⟩ := List.getElem?_eq_some_iff.mp hc
    simp [Live, State.setPc, hlt]
  case neg => simp [Live, State.setPc, hn, Ne.symm hn]

theorem live_append (hc : s'.calls = s.calls ++ [c]) :
    Live s' n key a ↔ Live s n key a ∨
      n = s.calls.length ∧ c.pc ≠ .done ∧ c.args.recvKey = key ∧ c.ack = some a := by
  grind [Live]

theorem mem_pending : (k, m) ∈ s.pending ↔
    (k, m) ∈ s.queue ∨ ∃ th ∈ s.threads, th.msg = some m ∧ th.key = k := by
  simp [State.pending, eq_comm]

theorem mem_pending_set {th : Thread} {msg : Option MsgBuf}
    (h : (k, m) ∈ { s with threads := s.threads.set j { th with msg := msg } }.pending) :
    (k, m) ∈ s.pending ∨ msg = some m ∧ th.key = k := by
  rcases mem_pending.mp h with hm | ⟨th', hm, ht⟩
  case inl => exact .inl (mem_pending.mpr (.inl hm))
  case inr =>
    rcases List.mem_or_eq_of_mem_set hm with hm | rfl
    · exact .inl (mem_pending.mpr (.inr ⟨th', hm, ht⟩))
    · exact .inr ht

theorem Carries.mono (h : Carries s k m)
    (hl : ∀ key a, Live s m.call key a → Live s' m.call key a)
    (ht : ∀ r ∈ s.tasks, r ∈ s'.tasks) : Carries s' k m := by
  intro a ha
  have ⟨key, hk, ho⟩ := h a ha
  refine ⟨key, hl key a hk, ho.imp_right fun ⟨h₀, hk, r, hr, hc⟩ => ⟨h₀, hk, r, ht r hr, hc⟩⟩

-- A step that touches neither the words nor the records, and sends nothing.
theorem Inv.frame (h : Inv s) (hl : ∀ n key a, Live s' n key a ↔ Live s n key a)
    (hp : ∀ k m, (k, m) ∈ s'.pending → (k, m) ∈ s.pending) (hh : s'.heap = s.heap)
    (ht : s'.tasks = s.tasks) (hw : s'.writes = s.writes) : Inv s' where
  word n key a hn := hh ▸ h.word n key a ((hl n key a).mp hn)
  pending k m hm  := (h.pending k m (hp k m hm)).mono (fun key a => (hl _ key a).mpr) (by simp [ht])
  safe            := ⟨hw ▸ h.safe.written, hh ▸ ht ▸ h.safe.answered⟩

theorem Inv.setPc (h : Inv s) (hc : s.calls[n]? = some c) (hd : c.pc ≠ .done) (hpc : pc ≠ .done) :
    Inv (s.setPc n c pc) :=
  h.frame (fun _ _ _ => live_setPc hc hd hpc) (fun _ _ hm => hm) rfl rfl rfl

theorem Inv.send (h : Inv s) (hm : Carries s k m) :
    Inv { s with queue := s.queue ++ [(k, m)] } where
  word    := h.word
  safe    := ⟨h.safe.written, h.safe.answered⟩
  pending k' m' hp := by
    rcases mem_pending.mp hp with hm' | ht
    case inr => exact h.pending k' m' (mem_pending.mpr (.inr ht))
    case inl =>
      rcases List.mem_append.mp hm' with hm' | hm'
      · exact h.pending k' m' (mem_pending.mpr (.inl hm'))
      · cases List.mem_singleton.mp hm'
        exact hm

theorem Inv.msgsnd {ret : Sent} (h : Inv s) (e : msgsnd n ret s = some s') : Inv s' := by
  have ⟨c, hc, e⟩ := Option.bind_eq_some_iff.mp e
  have ha : c.afterSend ≠ .done := by
    simp only [Call.afterSend]
    split <;> exact Pc.noConfusion
  split at e
  case h_1 hpc e =>
    cases e
    have hd : c.pc ≠ .done := by simp [hpc]
    refine (h.setPc hc hd ha).send fun a hp => ⟨c.args.recvKey, ?_, .inl rfl⟩
    exact (live_setPc hc hd ha).mpr ⟨c, hc, hd, rfl, hp⟩
  case h_2 hpc e =>
    cases e
    exact h.setPc hc (by simp [hpc]) Pc.noConfusion
  case h_3 hpc e =>
    cases e
    exact h.setPc hc (by simp [hpc]) ha
  case h_4 hpc e =>
    cases e
    exact h.setPc hc (by simp [hpc]) ha
  case h_5 => cases e

-- A request with a new ack word.
theorem Inv.malloc (h : Inv s) (hn : s.heap key a = none) (hk : key ≠ 0) (hc : c.ack = some a)
    (hr : c.args.recvKey = key) :
    Inv { s.store key a (some { call := s.calls.length }) with calls := s.calls ++ [c] } where
  word n k b hl := by
    rcases (live_append rfl).mp hl with hl | ⟨rfl, -, rfl, hb⟩
    case inl =>
      have ⟨h₀, w, hw, hwn⟩ := h.word n k b hl
      have hne : ¬(k = key ∧ b = a) := by
        rintro ⟨rfl, rfl⟩
        simp [hn] at hw
      exact ⟨h₀, w, by simp [hne, hw], hwn⟩
    case inr =>
      cases hc.symm.trans hb
      exact ⟨hr ▸ hk, { call := s.calls.length }, by simp [hr], rfl⟩
  pending k m hp :=
    (h.pending k m hp).mono (fun key a hl => (live_append rfl).mpr (.inl hl)) fun _ hr => hr
  safe := by
    refine ⟨h.safe.written, fun k b w hw hack => ?_⟩
    rw [heap_store] at hw
    split at hw
    case isTrue =>
      cases hw
      cases hack
    case isFalse => exact h.safe.answered k b w hw hack

theorem Inv.msgSend {args : Args} {malloc : Option Addr} (h : Inv s)
    (e : msgSend args malloc s = some s') : Inv s' := by
  have hcall : ∀ {c : Call}, c.ack = none → Inv { s with calls := s.calls ++ [c] } := by
    intro c hc
    refine h.frame (fun n key a => ?_) (fun _ _ hm => hm) rfl rfl rfl
    rw [live_append rfl]
    simp [hc]
  simp only [Msg.msgSend] at e
  split at e
  case isTrue =>
    cases e
    exact hcall rfl
  case isFalse hk =>
    split at e
    case h_1 =>
      cases e
      exact hcall rfl
    case h_2 a =>
      split at e <;> cases e
      case h_2 hn => exact h.malloc hn hk rfl rfl

theorem Inv.poll (h : Inv s) (e : poll n s = some s') : Inv s' := by
  have ⟨c, hc, e⟩ := Option.bind_eq_some_iff.mp e
  split at e
  case h_1 hpc _ =>
    have hd : c.pc ≠ .done := by simp [hpc]
    split at e <;> cases e
    · exact h.setPc hc hd Pc.noConfusion
    · exact h.setPc hc hd Pc.noConfusion
  case h_2 => cases e

theorem Inv.msgrcv (h : Inv s) (e : msgrcv j s = some s') : Inv s' := by
  have ⟨th, hj, e⟩ := Option.bind_eq_some_iff.mp e
  have ⟨⟨k, m⟩, hm, e⟩ := Option.bind_eq_some_iff.mp e
  dsimp only at e
  split at e <;> cases e
  refine h.frame (fun _ _ _ => Iff.rfl) (fun k' m' hp => ?_) rfl rfl rfl
  have hk : k = th.key := by simpa using List.find?_some hm
  rcases mem_pending_set (s := { s with queue := s.queue.eraseP (·.1 = th.key) }) hp with hp | hp
  case inl =>
    refine mem_pending.mpr ((mem_pending.mp hp).imp_left fun hq => ?_)
    exact List.mem_of_mem_eraseP hq
  case inr =>
    obtain ⟨hmsg, rfl⟩ := hp
    cases hmsg
    exact mem_pending.mpr (.inl (hk ▸ List.mem_of_find?_eq_some hm))

theorem Inv.lose (h : Inv s) (i : ℕ) : Inv { s with queue := s.queue.eraseIdx i } := by
  refine h.frame (fun _ _ _ => Iff.rfl) (fun k m hp => ?_) rfl rfl rfl
  refine mem_pending.mpr ((mem_pending.mp hp).imp_left fun hq => ?_)
  exact List.mem_of_mem_eraseIdx hq

theorem Inv.free (h : Inv s) (hs : Settled s (.free n)) (e : free n s = some s') : Inv s' := by
  have ⟨c, hc, e⟩ := Option.bind_eq_some_iff.mp e
  split at e
  case h_3 => cases e
  case h_1 hpc hack =>
    cases e
    refine h.frame (fun n' key a => ?_) (fun _ _ hm => hm) rfl rfl rfl
    rw [live_done hc, and_iff_left_iff_imp]
    rintro ⟨c', hc', -, -, ha⟩ rfl
    cases hc.symm.trans hc'
    simp [hack] at ha
  case h_2 a hpc hack =>
    cases e
    have hl : Live s n c.args.recvKey a := ⟨c, hc, by simp [hpc], rfl, hack⟩
    refine ⟨fun n' key b hl' => ?_, fun k m hp => ?_, h.safe.written, fun key b w hw => ?_⟩
    case refine_1 =>
      have ⟨hl', hne⟩ := (live_done (s := s.store c.args.recvKey a none) hc).mp hl'
      have hl' : Live s n' key b := hl'
      have ⟨h₀, w, hw, hwn⟩ := h.word n' key b hl'
      refine ⟨h₀, w, ?_, hwn⟩
      have : ¬(key = c.args.recvKey ∧ b = a) := by
        rintro ⟨rfl, rfl⟩
        exact hne (hl'.unique h hl)
      simpa [State.setPc, this] using hw
    case refine_2 =>
      intro b hb
      have ⟨key, hk, ho⟩ := h.pending k m hp b hb
      have hne := hs (k, m) hp (by simp [hb])
      exact ⟨key, (live_done (s := s.store c.args.recvKey a none) hc).mpr ⟨hk, hne⟩, ho⟩
    case refine_3 =>
      simp only [State.setPc, heap_store] at hw
      split at hw
      case isTrue  => cases hw
      case isFalse => exact h.safe.answered key b w hw

theorem Inv.task (h : Inv s) (m : MsgBuf) : Inv { s with tasks := s.tasks ++ [m] } where
  word := h.word
  pending k m' hp :=
    (h.pending k m' hp).mono (fun _ _ hl => hl) fun _ hr => List.mem_append_left _ hr
  safe := by
    refine ⟨h.safe.written, fun k b w hw hack => ?_⟩
    have ⟨r, hr, hc⟩ := h.safe.answered k b w hw hack
    exact ⟨r, List.mem_append_left _ hr, hc⟩

-- The answer to a request that was handled is written into its own word.
theorem Inv.writeAck {w : Word} (h : Inv s) (hw : s.heap key a = some w)
    (hr : ∃ r ∈ s.tasks, r.call = w.call) : Inv (s.writeAck key a w.call) where
  word n k b hl := by
    have ⟨h₀, w', hw', hn⟩ := h.word n k b hl
    by_cases hkb : k = key ∧ b = a
    case pos =>
      obtain ⟨rfl, rfl⟩ := hkb
      cases hw.symm.trans hw'
      exact ⟨h₀, { w with ack := true }, by simp [State.writeAck, hw], hn⟩
    case neg => exact ⟨h₀, w', by simpa [State.writeAck, hkb] using hw', hn⟩
  pending k m hp := (h.pending k m hp).mono (fun _ _ hl => hl) fun _ hr => hr
  safe := by
    constructor
    case written =>
      intro x hx
      rcases List.mem_append.mp hx with hx | hx
      · exact h.safe.written x hx
      · cases List.mem_singleton.mp hx
        simp [hw]
    case answered =>
      intro k b w' hw' hack
      simp only [State.writeAck, heap_store, hw] at hw'
      split at hw'
      case isTrue =>
        cases hw'
        exact hr
      case isFalse => exact h.safe.answered k b w' hw' hack

theorem Inv.msgThread {sent : Bool} (h : Inv s) (e : msgThread j sent s = some s') : Inv s' := by
  have ⟨th, hj, e⟩ := Option.bind_eq_some_iff.mp e
  have ⟨m, hm, e⟩ := Option.bind_eq_some_iff.mp e
  have hp : (th.key, m) ∈ s.pending :=
    mem_pending.mpr (.inr ⟨th, List.mem_of_getElem? hj, hm, rfl⟩)
  have hi : Inv { s with threads := s.threads.set j { th with msg := none } } :=
    h.frame (fun _ _ _ => Iff.rfl) (fun k m' hp => (mem_pending_set hp).resolve_right (by simp))
      rfl rfl rfl
  dsimp only at e
  split at e
  case h_1 a hptr hkey =>
    cases e
    have ⟨key, hl, hk⟩ := h.pending _ m hp a hptr
    have ⟨h₀, w, hw, hwn⟩ := h.word _ key a hl
    obtain ⟨-, rfl, r, hr, hrc⟩ := hk.resolve_left (by simp [hkey, Ne.symm h₀])
    rw [← hwn]
    exact hi.writeAck hw ⟨r, hr, hrc.trans hwn.symm⟩
  case h_2 hne =>
    cases e
    have ht := hi.task m
    split
    case isFalse => exact ht
    case isTrue hk =>
      simp only [msgSendAck]
      split
      case isFalse => exact ht
      case isTrue =>
        apply ht.send
        intro a ha
        have ⟨key, hl, ho⟩ := h.pending _ m hp a ha
        have hkey := ho.resolve_right fun ho => hk ho.left
        exact ⟨key, hl, .inr ⟨rfl, hkey, m, by simp, rfl⟩⟩

theorem Step.inv (h : Inv s) (hs : Settled s l) (e : Step s l s') : Inv s' := by
  cases l
  case msgSend   => exact h.msgSend e
  case msgsnd    => exact h.msgsnd e
  case poll      => exact h.poll e
  case free      => exact h.free hs e
  case msgrcv    => exact h.msgrcv e
  case msgThread => exact h.msgThread e
  case lose i    =>
    cases e
    exact h.lose i

theorem Inv.start (keys : List Int) : Inv (.start keys) where
  word n key a hl := by simp [Live, State.start] at hl
  pending k m hp  := by simp [mem_pending, State.start] at hp
  safe            := ⟨by simp [State.start], by simp [State.start]⟩

-- Where no `msgSend` frees its word while the request or its acknowledgement is on the way, each
-- acknowledgement releases the request that it answers.
theorem safe_of_settled {keys : List Int} {tr : List (State × Label)}
    (r : Run Step (.start keys) tr s) (hs : Run.Meets Settled tr) : Run.Always Safe tr s :=
  (Run.always_of_meets (fun _ _ _ h hs e => e.inv h hs) r (.start keys) hs).mono fun _ => Inv.safe

end

section

-- A request of the process 1 that the process 2 answers.
def answered : List Label := [
  .msgSend { buf := "stop", sendkey := 2, recvKey := 1, recvTimeout := 3 } (some 8), .msgsnd 0 .ok,
  .msgrcv 1, .msgThread 1 true, .poll 0, .msgrcv 0, .msgThread 0 true, .poll 0, .free 0]

theorem safe_of_settled_witness :
    ∃ s, Run Step (.start [1, 2]) (Run.partialTrace exec answered (.start [1, 2])) s ∧
      Run.Always Safe (Run.partialTrace exec answered (.start [1, 2])) s :=
  have r := Run.of_partialTrace exec answered (.start [1, 2]) rfl
  ⟨_, r, safe_of_settled r (by decide)⟩

-- The first request gives up before it is answered, and the second one gets its ack word.
def late : List Label := [
  .msgSend { buf := "stop", sendkey := 2, recvKey := 1, recvTimeout := 0 } (some 8), .msgsnd 0 .ok,
  .poll 0, .free 0,
  .msgSend { buf := "start", sendkey := 2, recvKey := 1, recvTimeout := 3 } (some 8),
  .msgrcv 1, .msgThread 1 true, .msgrcv 0, .msgThread 0 true]

theorem not_safe_of_late :
    ¬∀ (keys : List Int) (tr : List (State × Label)) (s : State),
      Run Step (.start keys) tr s → Run.Always Safe tr s := by
  intro h
  have ⟨_, r, hw⟩ := Run.exists_partialTrace exec late (.start [1, 2])
    (fun s => decide (⟨0, some 1⟩ ∈ s.writes)) (by decide)
  have hc := (h _ _ _ r).last.written _ (of_decide_eq_true hw)
  cases hc

end

-- What a word that is freed too early leads to.

-- No word is allocated, and the same threads run.
structure Keeps (s s' : State) : Prop where
  keys  : s'.threads.map Thread.key = s.threads.map Thread.key
  freed : ∀ key a, s.heap key a = none → s'.heap key a = none

section

variable {s s' s'' : State} {i j n : ℕ} {k key : Int} {a : Addr} {m : MsgBuf} {th : Thread}

theorem Keeps.trans (h : Keeps s s') (h' : Keeps s' s'') : Keeps s s'' :=
  ⟨h'.keys.trans h.keys, fun key a hn => h'.freed key a (h.freed key a hn)⟩

theorem map_key_set (hj : s.threads[j]? = some th) (msg : Option MsgBuf) :
    (s.threads.set j { th with msg := msg }).map Thread.key = s.threads.map Thread.key := by
  obtain ⟨hlt, rfl⟩ := List.getElem?_eq_some_iff.mp hj
  have hk : j < (s.threads.map Thread.key).length := by simpa using hlt
  have hs := List.set_getElem_self hk
  rw [List.getElem_map] at hs
  rw [List.map_set, hs]

theorem exists_run_lose (i : ℕ) (s : State) :
    ∃ tr, Run Step s tr { s with queue := s.queue.drop i } := by
  induction i generalizing s
  case zero => exact ⟨[], .refl⟩
  case succ i hi =>
    have ⟨tr, r⟩ := hi { s with queue := s.queue.eraseIdx 0 }
    refine ⟨(s, .lose 0) :: tr, .step rfl ?_⟩
    simpa using r

-- The thread becomes free to receive.
theorem exists_run_idle (hj : s.threads[j]? = some th) :
    ∃ tr s', Run Step s tr s' ∧ Keeps s s' ∧ s'.queue = s.queue ∧
      s'.threads[j]? = some { th with msg := none } := by
  have ⟨hlt, hth⟩ := List.getElem?_eq_some_iff.mp hj
  cases hm : th.msg
  case none =>
    refine ⟨[], s, .refl, ⟨rfl, fun _ _ hn => hn⟩, rfl, ?_⟩
    rw [hj, ← hm]
  case some m =>
    have ⟨s', e⟩ : ∃ s', Step s (.msgThread j false) s' := by
      simp only [Step, exec, Msg.msgThread, hj, hm, Option.bind_some, bind]
      split <;> exact ⟨_, rfl⟩
    refine ⟨_, s', .single e, ?_⟩
    simp only [Step, exec, Msg.msgThread, hj, hm, Option.bind_some, bind] at e
    split at e <;> cases e
    case h_1 =>
      have ht : (s.threads.set j { th with msg := none })[j]? = some { th with msg := none } := by
        simp [hlt]
      refine ⟨⟨map_key_set hj _, fun key b hn => ?_⟩, rfl, ht⟩
      simp only [State.writeAck, heap_store]
      split
      case isTrue hb => simp [← hb.left, ← hb.right, hn]
      case isFalse   => exact hn
    case h_2 =>
      have hs : ∀ s' : State, (if m.key ≠ 0 then msgSendAck m false s' else s') = s' := by
        simp [msgSendAck]
      rw [hs]
      exact ⟨⟨map_key_set hj _, fun _ _ hn => hn⟩, rfl, by simp [hlt]⟩

-- A message gets to a thread when those before it are lost.
theorem exists_run_msgrcv (hm : (k, m) ∈ s.queue) (hk : k ∈ s.threads.map Thread.key) :
    ∃ tr s', ∃ j : ℕ, Run Step s tr s' ∧ Keeps s s' ∧
      s'.threads[j]? = some { key := k, msg := some m } := by
  obtain ⟨th, ht, rfl⟩ := List.mem_map.mp hk
  have ⟨j, hj⟩ := List.mem_iff_getElem?.mp ht
  have ⟨i, hi⟩ := List.mem_iff_getElem?.mp hm
  have ⟨tr, s₁, r, hs, hq, hj⟩ := exists_run_idle hj
  have ⟨tr', r'⟩ := exists_run_lose i s₁
  have ⟨hlt, hi⟩ := List.getElem?_eq_some_iff.mp (hq ▸ hi)
  have e : Step { s₁ with queue := s₁.queue.drop i } (.msgrcv j) { s₁ with
      queue := s₁.queue.drop (i + 1), threads := s₁.threads.set j { th with msg := some m } } := by
    simp only [Step, exec, Msg.msgrcv, hj, Option.bind_some, bind,
      List.drop_eq_getElem_cons hlt, hi]
    simp
  refine ⟨_, _, j, r.append (r'.append (.single e)), ?_, ?_⟩
  · exact hs.trans ⟨map_key_set hj _, fun _ _ hn => hn⟩
  · have hlt := (List.getElem?_eq_some_iff.mp hj).choose
    simp [hlt]

-- The answer is written where no word is.
theorem exists_not_safe_of_answer (hj : s.threads[j]? = some th) (hm : th.msg = some m)
    (ha : m.ptr = some a) (hk : m.key = 0) (hn : s.heap th.key a = none) :
    ∃ tr s', Run Step s tr s' ∧ ¬Safe s' := by
  have e : Step s (.msgThread j false) (State.writeAck th.key a m.call
      { s with threads := s.threads.set j { th with msg := none } }) := by
    simp [Step, exec, Msg.msgThread, hj, hm, ha, hk]
  refine ⟨_, _, .single e, fun h => ?_⟩
  have hw := h.written ⟨m.call, none⟩ (by simp [State.writeAck, hn])
  cases hw

theorem exists_not_safe_of_pending (hm : (k, m) ∈ s.pending) (ha : m.ptr = some a)
    (hn : s.heap key a = none) (hk : m.key = key ∧ key ≠ 0 ∨ m.key = 0 ∧ k = key)
    (hth : k ∈ s.threads.map Thread.key) (hth' : key ∈ s.threads.map Thread.key) :
    ∃ tr s', Run Step s tr s' ∧ ¬Safe s' := by
  have ⟨tr, s₁, j, r, hs, hj⟩ : ∃ tr s', ∃ j : ℕ, Run Step s tr s' ∧ Keeps s s' ∧
      s'.threads[j]? = some { key := k, msg := some m } := by
    rcases mem_pending.mp hm with hm | ⟨th, ht, hmsg, rfl⟩
    case inl => exact exists_run_msgrcv hm hth
    case inr =>
      have ⟨j, hj⟩ := List.mem_iff_getElem?.mp ht
      exact ⟨[], s, j, .refl, ⟨rfl, fun _ _ hn => hn⟩, by rw [hj, ← hmsg]⟩
  have hn := hs.freed key a hn
  rcases hk with ⟨rfl, hk⟩ | ⟨hk, rfl⟩
  case inr =>
    have ⟨tr', s₂, r', hu⟩ := exists_not_safe_of_answer hj rfl ha hk hn
    exact ⟨_, s₂, r.append r', hu⟩
  case inl =>
    -- The request is handled first, and its answer goes the same way.
    have e : Step s₁ (.msgThread j true) (msgSendAck m true { s₁ with
        threads := s₁.threads.set j { key := k }, tasks := s₁.tasks ++ [m] }) := by
      simp [Step, exec, Msg.msgThread, hj, hk]
    have ⟨tr', s₂, j', r', hs', hj'⟩ := exists_run_msgrcv (k := m.key)
      (m := { key := 0, ptr := m.ptr, buf := [], call := m.call })
      (s := msgSendAck m true { s₁ with
        threads := s₁.threads.set j { key := k }, tasks := s₁.tasks ++ [m] })
      (by simp [msgSendAck]) ?_
    case refine_1 =>
      simp only [msgSendAck, if_true]
      rw [map_key_set hj none, hs.keys]
      exact hth'
    have ⟨tr'', s₃, r'', hu⟩ := exists_not_safe_of_answer hj' rfl ha rfl (hs'.freed _ _ hn)
    exact ⟨_, s₃, r.append (.step e (r'.append r'')), hu⟩

-- Where the threads of both processes run, the condition cannot be weakened: a word that is freed
-- while its address is on the way can still be written to.
theorem exists_not_safe_of_not_settled (h : Inv s) (e : Step s (.free n) s')
    (hs : ¬Settled s (.free n)) (hth : ∀ x ∈ s.pending, x.1 ∈ s.threads.map Thread.key)
    (hth' : ∀ c ∈ s.calls, c.args.recvKey ∈ s.threads.map Thread.key) :
    ∃ tr s'', Run Step s' tr s'' ∧ ¬Safe s'' := by
  simp only [Settled, not_forall] at hs
  have ⟨⟨k, m⟩, hm, hp, hn⟩ := hs
  have ⟨a, ha⟩ := Option.ne_none_iff_exists'.mp hp
  obtain ⟨key, ⟨c, hc, hd, rfl, hack⟩, ho⟩ := h.pending k m hm a ha
  have ⟨h₀, _⟩ := h.word _ _ _ ⟨c, hc, hd, rfl, hack⟩
  have hk := hth' c (List.mem_of_getElem? hc)
  cases not_not.mp hn
  simp only [Step, exec, Msg.free, hc, Option.bind_some, bind, hack] at e
  split at e <;> cases e
  case h_1 he => cases he
  case h_2 b he =>
    cases he
    have hn :
        ((s.store c.args.recvKey a none).setPc m.call c .done).heap c.args.recvKey a = none := by
      simp [State.setPc]
    refine exists_not_safe_of_pending hm ha hn ?_ (hth _ hm) hk
    exact ho.imp (fun hk => ⟨hk, h₀⟩) fun ho => ⟨ho.left, ho.right.left⟩

end

end Msg
