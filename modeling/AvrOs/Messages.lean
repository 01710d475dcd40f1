import AvrOs.Circular.Ring
import AvrOs.Refinement
import AvrOs.Waiting

/-!
# Queues lose nothing

What receivers have got and what is in the buffer are the messages the queue has accepted, in the
order it has accepted them in.
-/

namespace AvrOs
open Intrusive Transition Kernel

variable {c : Config} {k k' : ListKernel c} {q : Place c}

/-! ### The account of a queue -/

def emptied (q : Place c) : Event c → Bool
  | .queueInit u => u = q
  | _ => false

def acceptedMsg (q : Place c) : Event c → Option (List Byte)
  | .accepted u msg => if u = q then some msg else none
  | _ => none

def deliveredMsg (q : Place c) : Event c → Option (List Byte)
  | .delivered u msg => if u = q then some msg else none
  | _ => none

def accessedOffset (q : Place c) : Event c → Option ℕ
  | .accessed u n => if u = q then some n else none
  | _ => none

/-- What the entries since the queue has been initialised tell, the oldest one first. -/
def account {α : Type} (q : Place c) (f : Event c → Option α) (log : List (Event c)) : List α :=
  ((log.takeWhile fun e => !emptied q e).filterMap f).reverse

def acceptedBy (q : Place c) : List (Event c) → List (List Byte) := account q (acceptedMsg q)
def deliveredFrom (q : Place c) : List (Event c) → List (List Byte) := account q (deliveredMsg q)
def accessesOf (q : Place c) : List (Event c) → List ℕ := account q (accessedOffset q)

/-- The entry is none of this queue. -/
def Elsewhere (q : Place c) (e : Event c) : Prop :=
  emptied q e = false ∧ acceptedMsg q e = none ∧ deliveredMsg q e = none ∧ accessedOffset q e = none

section
variable {α : Type} (f : Event c → Option α)

theorem account_cons (e : Event c) (log : List (Event c)) (he : emptied q e = false) :
    account q f (e :: log) = account q f log ++ (f e).toList := by
  unfold account
  rw [List.takeWhile_cons_of_pos (by simp [he]), List.filterMap_cons]
  cases f e with
  | none => simp
  | some x => simp

theorem account_emptied (log : List (Event c)) : account q f (.queueInit q :: log) = [] := by
  unfold account
  rw [List.takeWhile_cons_of_neg (by simp [emptied])]
  rfl

theorem account_elsewhere (es log : List (Event c)) (h : ∀ e ∈ es, emptied q e = false ∧ f e = none) :
    account q f (es ++ log) = account q f log := by
  induction es with
  | nil => rfl
  | cons e es ih =>
    obtain ⟨he, hf⟩ := h e List.mem_cons_self
    rw [List.cons_append, account_cons f e _ he, hf, ih fun x hx => h x (List.mem_cons_of_mem e hx)]
    exact List.append_nil _

end

/-! ### The buffer -/

/-- Message `i` of the buffer. -/
def slot (x : OsQueue) (i : ℕ) : List Byte := load x.buffer (i * x.itemSize) x.itemSize

/-- Messages which are in the queue. -/
def held (x : OsQueue) : List (List Byte) := Circular.ring (slot x) x.head x.count x.length

/-- The queue is set up and within its bounds. -/
structure InBounds (x : OsQueue) : Prop where
  itemSize : 0 < x.itemSize ∧ x.itemSize ≤ 255
  length : 0 < x.length ∧ x.length ≤ 255
  count : x.count ≤ x.length
  head : x.head < x.length

section
variable {x : OsQueue}

/-- Nothing wraps in 16 bits. -/
theorem InBounds.inside (h : InBounds x) {i : ℕ} (hi : i < x.length) :
    i * x.itemSize % 65536 = i * x.itemSize ∧ i * x.itemSize + x.itemSize ≤ x.itemSize * x.length := by
  have hlast : (i + 1) * x.itemSize ≤ x.length * x.itemSize := Nat.mul_le_mul_right _ hi
  have hall : x.length * x.itemSize ≤ 255 * 255 := Nat.mul_le_mul h.length.2 h.itemSize.2
  have hsum : (i + 1) * x.itemSize = i * x.itemSize + x.itemSize := Nat.succ_mul ..
  have hcomm : x.itemSize * x.length = x.length * x.itemSize := Nat.mul_comm ..
  exact ⟨Nat.mod_eq_of_lt (by omega), by omega⟩

theorem InBounds.headOffset (h : InBounds x) : Kernel.headOffset x = x.head * x.itemSize := (h.inside h.head).1

theorem InBounds.tailOffset (h : InBounds x) : Kernel.tailOffset x = (x.head + x.count) % x.length * x.itemSize := by
  have hcount := h.count
  have hhead := h.head
  have hlength := h.length
  have htail : (x.head + x.count) % 65536 = x.head + x.count := Nat.mod_eq_of_lt (by omega)
  have hwrap : (if x.length ≤ x.head + x.count then x.head + x.count - x.length else x.head + x.count) =
      (x.head + x.count) % x.length := by
    split
    case isTrue hle => rw [Nat.mod_eq_sub_mod hle, Nat.mod_eq_of_lt (by omega)]
    case isFalse hlt => rw [Nat.mod_eq_of_lt (by omega)]
  unfold Kernel.tailOffset
  dsimp only
  rw [htail, hwrap]
  exact (h.inside (Nat.mod_lt _ hlength.1)).1

/-- The slot gets the message, the others stay. -/
theorem slot_store (buffer : Address → Byte) (n j : ℕ) (msg : List Byte) (hmsg : msg.length = n) :
    (fun i => load (store buffer (j * n) msg) (i * n) n) = Function.update (fun i => load buffer (i * n) n) j msg := by
  funext i
  by_cases hij : i = j
  · rw [hij, Function.update_self, ← hmsg]
    exact load_store ..
  · rw [Function.update_of_ne hij]
    refine load_store_disjoint _ _ _ _ _ ?_
    rw [hmsg]
    rcases Nat.lt_or_gt_of_ne hij with hlt | hlt
    · exact .inl ((Nat.succ_mul i n).symm.trans_le (Nat.mul_le_mul_right n hlt))
    · exact .inr ((Nat.succ_mul j n).symm.trans_le (Nat.mul_le_mul_right n hlt))

/-- `osQueueAppend` as far as the queue is concerned. -/
theorem InBounds.append (h : InBounds x) (hroom : x.count < x.length) {msg : List Byte} (hmsg : msg.length = x.itemSize) :
    InBounds { x with buffer := store x.buffer (Kernel.tailOffset x) msg, count := (x.count + 1) % 256 } ∧
    held { x with buffer := store x.buffer (Kernel.tailOffset x) msg, count := (x.count + 1) % 256 } = held x ++ [msg] := by
  have hlength := h.length
  have hcount : (x.count + 1) % 256 = x.count + 1 := Nat.mod_eq_of_lt (by omega)
  rw [h.tailOffset, hcount]
  refine ⟨⟨h.itemSize, h.length, hroom, h.head⟩, ?_⟩
  have hslots := slot_store x.buffer x.itemSize ((x.head + x.count) % x.length) msg hmsg
  unfold held slot
  dsimp only
  rw [hslots]
  exact Circular.ring_append hroom msg

/-- `osQueueTake` as far as the queue is concerned. -/
theorem InBounds.take (h : InBounds x) (hcount : 0 < x.count) :
    InBounds { x with head := if (x.head + 1) % 256 = x.length then 0 else (x.head + 1) % 256, count := x.count - 1 } ∧
    held x = load x.buffer (Kernel.headOffset x) x.itemSize ::
      held { x with head := if (x.head + 1) % 256 = x.length then 0 else (x.head + 1) % 256, count := x.count - 1 } := by
  have hlength := h.length
  have hhead := h.head
  have hle := h.count
  have hnext : (if (x.head + 1) % 256 = x.length then 0 else (x.head + 1) % 256) = (x.head + 1) % x.length := by
    rw [Nat.mod_eq_of_lt (show x.head + 1 < 256 by omega)]
    split
    case isTrue he => rw [he, Nat.mod_self]
    case isFalse hne => rw [Nat.mod_eq_of_lt (by omega)]
  rw [hnext, h.headOffset]
  refine ⟨⟨h.itemSize, h.length, by dsimp only; omega, Nat.mod_lt _ hlength.1⟩, ?_⟩
  have hslot : slot x (x.head % x.length) = load x.buffer (x.head * x.itemSize) x.itemSize := by
    rw [Nat.mod_eq_of_lt hhead]
    rfl
  rw [← hslot]
  exact Circular.ring_take hcount

end

/-! ### The line of a queue -/

/-- The task is in line for a message. -/
def WaitsForMessage {S : Type → Type → Type} (k : Kernel c S) (q t : Place c) : Prop :=
  ∃ item timeout, k.frames t = some (.blocked (.osQueueReceive q item timeout)) ∧ (k.tasks t).wait = .item item

/-- The task is in line for a room for its message. -/
def WaitsForRoom {S : Type → Type → Type} (k : Kernel c S) (q t : Place c) : Prop :=
  ∃ item timeout, k.frames t = some (.blocked (.osQueueSend q item timeout)) ∧ (k.tasks t).wait = .item item

/-- Nothing is lost, sent twice or overtaken, and the buffer is not left. -/
structure Balance (x : OsQueue) (q : Place c) (log : List (Event c)) : Prop extends InBounds x where
  order : deliveredFrom q log ++ held x = acceptedBy q log
  inside : ∀ n ∈ accessesOf q log, n + x.itemSize ≤ x.itemSize * x.length

/-- Either there is nothing for those who wait for a message, or no room for those who wait for one. -/
structure Fifo (q : Place c) (k : ListKernel c) : Prop where
  balance : Balance (k.queues q) q k.log
  line : ∀ t ∈ k.links (.wait (.queue q)), WaitsForMessage k q t ∧ (k.queues q).count = 0 ∨
    WaitsForRoom k q t ∧ (k.queues q).count = (k.queues q).length

/-- Provided it has been set up with a length and a size of messages. -/
def Ordinary (q : Place c) (k : ListKernel c) : Prop :=
  0 < (k.queues q).itemSize → 0 < (k.queues q).length → Fifo q k

section
variable {x : OsQueue} {log : List (Event c)}

theorem account_pair {α : Type} (f : Event c → Option α) (e e' : Event c) (he : emptied q e = false) (he' : emptied q e' = false) :
    account q f (e :: e' :: log) = account q f log ++ (f e').toList ++ (f e).toList := by
  rw [account_cons f e _ he, account_cons f e' _ he']

theorem Balance.other (h : Balance x q log) (e : Event c) (he : Elsewhere q e) : Balance x q (e :: log) := by
  obtain ⟨hemptied, haccepted, hdelivered, haccessed⟩ := he
  refine ⟨h.toInBounds, ?_, ?_⟩
  · have horder := h.order
    unfold deliveredFrom acceptedBy at horder ⊢
    rw [account_cons _ _ _ hemptied, account_cons _ _ _ hemptied, hdelivered, haccepted, Option.toList_none,
      List.append_nil, List.append_nil]
    exact horder
  · unfold accessesOf
    rw [account_cons _ _ _ hemptied, haccessed, Option.toList_none, List.append_nil]
    exact h.inside

/-- A message which is copied from whoever sends it to whoever waits for it. -/
theorem Balance.hand (h : Balance x q log) (hzero : x.count = 0) (msg : List Byte) :
    Balance x q (.delivered q msg :: .accepted q msg :: log) := by
  have horder := h.order
  have hnil : held x = [] := by
    unfold held Circular.ring
    rw [hzero]
    rfl
  refine ⟨h.toInBounds, ?_, ?_⟩
  · unfold deliveredFrom acceptedBy at horder ⊢
    rw [account_pair _ _ _ rfl rfl, account_pair _ _ _ rfl rfl, hnil]
    rw [hnil, List.append_nil] at horder
    simp [deliveredMsg, acceptedMsg, horder]
  · unfold accessesOf
    rw [account_pair _ _ _ rfl rfl]
    simpa [accessedOffset, accessesOf] using h.inside

theorem Balance.append (h : Balance x q log) (hroom : x.count < x.length) {msg : List Byte} (hmsg : msg.length = x.itemSize) :
    Balance { x with buffer := store x.buffer (tailOffset x) msg, count := (x.count + 1) % 256 } q
      (.accepted q msg :: .accessed q (tailOffset x) :: log) := by
  have horder := h.order
  obtain ⟨hbounds, hheld⟩ := h.toInBounds.append hroom hmsg
  refine ⟨hbounds, ?_, ?_⟩
  · rw [hheld]
    unfold deliveredFrom acceptedBy at horder ⊢
    rw [account_pair _ _ _ rfl rfl, account_pair _ _ _ rfl rfl, ← horder]
    simp [deliveredMsg, acceptedMsg]
  · unfold accessesOf
    rw [account_pair _ _ _ rfl rfl]
    intro n hn
    rcases List.mem_append.mp hn with hn | hn
    · rcases List.mem_append.mp hn with hn | hn
      · exact h.inside n hn
      · have hlist : (accessedOffset q (.accessed q (tailOffset x))).toList = [tailOffset x] := by simp [accessedOffset]
        rw [hlist, List.mem_singleton] at hn
        rw [hn, h.tailOffset]
        exact (h.toInBounds.inside (Nat.mod_lt _ h.length.1)).2
    · simp [accessedOffset] at hn

theorem Balance.take (h : Balance x q log) (hcount : 0 < x.count) :
    Balance { x with head := if (x.head + 1) % 256 = x.length then 0 else (x.head + 1) % 256, count := x.count - 1 } q
      (.delivered q (load x.buffer (headOffset x) x.itemSize) :: .accessed q (headOffset x) :: log) := by
  have horder := h.order
  obtain ⟨hbounds, hheld⟩ := h.toInBounds.take hcount
  refine ⟨hbounds, ?_, ?_⟩
  · rw [hheld] at horder
    unfold deliveredFrom acceptedBy at horder ⊢
    rw [account_pair _ _ _ rfl rfl, account_pair _ _ _ rfl rfl, ← horder]
    simp [deliveredMsg, acceptedMsg]
  · unfold accessesOf
    rw [account_pair _ _ _ rfl rfl]
    intro n hn
    rcases List.mem_append.mp hn with hn | hn
    · rcases List.mem_append.mp hn with hn | hn
      · exact h.inside n hn
      · have hlist : (accessedOffset q (.accessed q (headOffset x))).toList = [headOffset x] := by simp [accessedOffset]
        rw [hlist, List.mem_singleton] at hn
        rw [hn, h.headOffset]
        exact (h.toInBounds.inside h.head).2
    · simp [accessedOffset] at hn

end

/-- Steps which are none of this queue. -/
theorem Ordinary.elsewhere (h : Ordinary q k) {es : List (Event c)} (hl : k'.log = es ++ k.log)
    (he : ∀ e ∈ es, Elsewhere q e) (hq : k'.queues q = k.queues q)
    (hw : ∀ t ∈ k'.links (.wait (.queue q)), t ∈ k.links (.wait (.queue q)) ∧ k'.frames t = k.frames t ∧
      (k'.tasks t).wait = (k.tasks t).wait) : Ordinary q k' := by
  unfold Ordinary
  rw [hq]
  intro hsize hlength
  obtain ⟨⟨hbounds, horder, hinside⟩, hline⟩ := h hsize hlength
  refine ⟨⟨hq ▸ hbounds, ?_, ?_⟩, fun t ht => ?_⟩
  · unfold acceptedBy deliveredFrom at horder ⊢
    rw [hq, hl, account_elsewhere _ es _ fun e hm => ⟨(he e hm).1, (he e hm).2.2.1⟩,
      account_elsewhere _ es _ fun e hm => ⟨(he e hm).1, (he e hm).2.1⟩]
    exact horder
  · unfold accessesOf at hinside ⊢
    rw [hq, hl, account_elsewhere _ es _ fun e hm => ⟨(he e hm).1, (he e hm).2.2.2⟩]
    exact hinside
  · obtain ⟨hold, hf, hx⟩ := hw t ht
    unfold WaitsForMessage WaitsForRoom at hline ⊢
    rw [hq, hf, hx]
    exact hline t hold

/-- Steps which are about this queue. -/
def Atom.IsOn (q : Place c) : Atom c → Prop
  | .send u _ | .receive u _ | .queueInit u _ _ => u = q
  | _ => False

theorem Atom.elsewhere (a : Atom c) (ha : ¬ a.IsOn q) (e : Event c) (he : a.Writes e) : Elsewhere q e := by
  cases a with
  | called x =>
    obtain ⟨t, mine, rfl⟩ := he
    simp [Elsewhere, emptied, acceptedMsg, deliveredMsg, accessedOffset]
  | leave =>
    obtain ⟨t, call, v, rfl⟩ := he
    simp [Elsewhere, emptied, acceptedMsg, deliveredMsg, accessedOffset]
  | sleep call list timeout | release t m =>
    obtain ⟨t, rfl⟩ := he
    simp [Elsewhere, emptied, acceptedMsg, deliveredMsg, accessedOffset]
  | expire t =>
    obtain ⟨w, rfl⟩ := he
    simp [Elsewhere, emptied, acceptedMsg, deliveredMsg, accessedOffset]
  | give u =>
    rcases he with rfl | rfl | ⟨t, rfl⟩ <;> simp [Elsewhere, emptied, acceptedMsg, deliveredMsg, accessedOffset]
  | send u item | receive u item =>
    have hu : u ≠ q := ha
    rcases he with ⟨msg, rfl⟩ | ⟨msg, rfl⟩ | ⟨n, rfl⟩ | ⟨t, rfl⟩ <;>
      simp [Elsewhere, emptied, acceptedMsg, deliveredMsg, accessedOffset, hu]
  | queueInit u itemSize length =>
    have hu : u ≠ q := ha
    rw [show e = _ from he]
    simp [Elsewhere, emptied, acceptedMsg, deliveredMsg, accessedOffset, hu]
  | consume e wanted options =>
    obtain ⟨t, f, o, rfl⟩ := he
    simp [Elsewhere, emptied, acceptedMsg, deliveredMsg, accessedOffset]
  | serve e t =>
    rcases he with rfl | ⟨f, o, rfl⟩ | rfl <;> simp [Elsewhere, emptied, acceptedMsg, deliveredMsg, accessedOffset]
  | timerCalled | requeue | kill | park | unpark | create | take | semaphoreInit | flagsSet | eventInit | tick =>
    rw [show e = _ from he]
    simp [Elsewhere, emptied, acceptedMsg, deliveredMsg, accessedOffset]
  | _ => exact absurd he id

theorem Atom.other_queue (a : Atom c) (h : Sound k) (hg : a.guard k) (ha : ¬ a.IsOn q) :
    (a.apply k).queues q = k.queues q := by
  cases a with
  | queueInit u itemSize length => exact Function.update_of_ne (Ne.symm ha) ..
  | send u item =>
    have hu : q ≠ u := Ne.symm ha
    rw [apply]
    rcases send_cases k u item with ⟨w, rest, -, -, he⟩ | ⟨-, -, he⟩ | ⟨-, -, he⟩
    · rw [he, osWake_eq]
      rfl
    · rw [he]
      exact Function.update_of_ne hu ..
    · rw [he]
  | receive u item =>
    have hu : q ≠ u := Ne.symm ha
    rw [apply]
    rcases receive_cases k u item with ⟨w, rest, -, -, he⟩ | ⟨-, -, he⟩ | ⟨-, he⟩
    · rw [he, osWake_eq]
      exact (Function.update_of_ne hu ..).trans (Function.update_of_ne hu ..)
    · rw [he]
      exact Function.update_of_ne hu ..
    · rw [he]
  | _ => exact congrFun ((Atom.kept _ h hg).queues (by simp [OnQueues])) q

/-! ### Steps of the queue -/

/-- The current task gets in line. -/
theorem sleep_ordinary {call : Call c} {timeout : OsTick c}
    (hg : (Atom.sleep call (some (.queue q)) timeout).guard k) (ho : Ordinary q k) :
    Ordinary q ((Atom.sleep call (some (.queue q)) timeout).apply k) := by
  intro hsize hlength
  obtain ⟨-, hrunning, -, -, -, item, hwait, hcall⟩ := hg
  have hsleeper : (k.sleeper (some (.queue q)) timeout).wait = (k.tasks k.currentTask).wait := by
    unfold sleeper
    dsimp only
    split <;> rfl
  rw [Atom.apply, sleep_eq] at hsize hlength ⊢
  obtain ⟨hbalance, hline⟩ := ho hsize hlength
  refine ⟨hbalance.other (.blocked k.currentTask (some (.queue q)) timeout) ⟨rfl, rfl, rfl, rfl⟩, fun t ht => ?_⟩
  · by_cases hc : t = k.currentTask
    · have hwaits : ∀ x, call = x → Function.update k.frames k.currentTask (some (.blocked call)) t = some (.blocked x) :=
        fun x hx => by rw [hc, Function.update_self, hx]
      have hitem : (Function.update k.tasks k.currentTask (k.sleeper (some (.queue q)) timeout) t).wait = .item item := by
        rw [hc, Function.update_self, hsleeper, hwait]
      rcases hcall with ⟨hx, hzero⟩ | ⟨hx, hfull, -⟩
      · exact .inl ⟨⟨item, timeout, hwaits _ hx, hitem⟩, hzero⟩
      · exact .inr ⟨⟨item, timeout, hwaits _ hx, hitem⟩, Nat.le_antisymm hbalance.count hfull⟩
    · have hold : t ∈ k.links (.wait (.queue q)) :=
        ((Lists.mem_insert ..).mp ht).elim (fun hx => absurd hx.2 hc) id
      unfold WaitsForMessage WaitsForRoom at hline ⊢
      dsimp only
      rw [Function.update_of_ne hc, Function.update_of_ne hc]
      exact hline t hold

theorem queueInit_ordinary (itemSize length : Byte) : Ordinary q ((Atom.queueInit q itemSize length).apply k) := by
  have hqueue : ((Atom.queueInit q itemSize length).apply k).queues q =
    { k.queues q with itemSize := itemSize.toNat, length := length.toNat, count := 0, head := 0 } := Function.update_self ..
  have hlog : ((Atom.queueInit q itemSize length).apply k).log = .queueInit q :: k.log := rfl
  have hnil : ((Atom.queueInit q itemSize length).apply k).links (.wait (.queue q)) = [] := Function.update_self ..
  intro hsize hlength
  have hi := itemSize.isLt
  have hl := length.isLt
  rw [hqueue] at hsize hlength
  refine ⟨⟨?_, ?_, ?_⟩, ?_⟩
  · rw [hqueue]
    exact ⟨⟨hsize, by dsimp only; omega⟩, ⟨hlength, by dsimp only; omega⟩, Nat.zero_le _, hlength⟩
  · rw [hqueue, hlog]
    unfold acceptedBy deliveredFrom
    rw [account_emptied, account_emptied]
    rfl
  · rw [hlog]
    unfold accessesOf
    rw [account_emptied]
    exact fun n hn => absurd hn List.not_mem_nil
  · rw [hnil]
    exact fun t ht => absurd ht List.not_mem_nil

/-- There is a room and nobody is in line for a message, so nobody is in line at all. -/
theorem Fifo.nobody (h : Fifo q k) (hline : k.links (.wait (.queue q)) = [] ∨ (k.queues q).count ≠ 0)
    (hroom : (k.queues q).count < (k.queues q).length) : k.links (.wait (.queue q)) = [] := by
  rcases hline with hnil | hne
  · exact hnil
  · refine List.eq_nil_iff_forall_not_mem.mpr fun t ht => ?_
    rcases h.line t ht with ⟨-, hzero⟩ | ⟨-, hfull⟩
    · exact hne hzero
    · omega

theorem append_queue (k : ListKernel c) (item : Address) : (k.osQueueAppend q item).queues q =
    { k.queues q with
      buffer := store (k.queues q).buffer (tailOffset (k.queues q)) (load k.memory item (k.queues q).itemSize)
      count := ((k.queues q).count + 1) % 256 } := Function.update_self ..

theorem take_queue (k : ListKernel c) (item : Address) : (k.osQueueTake q item).queues q =
    { k.queues q with
      head := if ((k.queues q).head + 1) % 256 = (k.queues q).length then 0 else ((k.queues q).head + 1) % 256
      count := (k.queues q).count - 1 } := Function.update_self ..

/-- The line gets shorter and the count is the same. -/
theorem Fifo.line_still (h : Fifo q k) (hstill : ∀ t ∈ k'.links (.wait (.queue q)), t ∈ k.links (.wait (.queue q)) ∧
      k'.frames t = k.frames t ∧ (k'.tasks t).wait = (k.tasks t).wait)
    (hcount : (k'.queues q).count = (k.queues q).count) (hlength : (k'.queues q).length = (k.queues q).length) :
    ∀ t ∈ k'.links (.wait (.queue q)), WaitsForMessage k' q t ∧ (k'.queues q).count = 0 ∨
      WaitsForRoom k' q t ∧ (k'.queues q).count = (k'.queues q).length := fun t ht => by
  obtain ⟨hold, hf, hx⟩ := hstill t ht
  have hline := h.line t hold
  unfold WaitsForMessage WaitsForRoom at hline ⊢
  rw [hf, hx, hcount, hlength]
  exact hline

theorem send_ordinary (h : Sound k) (item : Address) (ho : Ordinary q k) : Ordinary q ((Atom.send q item).apply k) := by
  have hstill := fun t (ht : t ∈ ((Atom.send q item).apply k).links (.wait (.queue q))) =>
    (Atom.send q item).still_waits h trivial (.queue q) (by simp) ht
  intro hsize hlength
  rw [Atom.apply] at hstill hsize hlength ⊢
  rcases send_cases k q item with ⟨w, rest, -, hzero, he⟩ | ⟨hline, hroom, he⟩ | ⟨-, -, he⟩
  · have hqueue : (k.osQueueSendFromISR q item).queues q = k.queues q := by
      rw [he, osWake_eq]
      rfl
    rw [hqueue] at hsize hlength
    have hfifo := ho hsize hlength
    refine ⟨?_, hfifo.line_still hstill (by rw [hqueue]) (by rw [hqueue])⟩
    rw [hqueue, he, osWake_eq]
    dsimp only
    rw [hand_log]
    exact Balance.other (hfifo.balance.hand hzero _) _ ⟨rfl, rfl, rfl, rfl⟩
  · rw [he] at hstill hsize hlength ⊢
    rw [append_queue] at hsize hlength
    have hfifo := ho hsize hlength
    have hnil := hfifo.nobody hline hroom
    refine ⟨?_, fun t ht => ?_⟩
    · rw [append_queue, append_log]
      exact hfifo.balance.append hroom (load_length ..)
    · have hold := (hstill t ht).1
      rw [hnil] at hold
      cases hold
  · rw [he] at hsize hlength ⊢
    exact ho hsize hlength

theorem receive_ordinary (h : Sound k) (item : Address) (ho : Ordinary q k) :
    Ordinary q ((Atom.receive q item).apply k) := by
  have hstill := fun t (ht : t ∈ ((Atom.receive q item).apply k).links (.wait (.queue q))) =>
    (Atom.receive q item).still_waits h trivial (.queue q) (by simp) ht
  intro hsize hlength
  rw [Atom.apply] at hstill hsize hlength ⊢
  rcases receive_cases k q item with ⟨w, rest, -, hne, he⟩ | ⟨hline, hne, he⟩ | ⟨-, he⟩
  · have hqueue : (k.osQueueReceiveFromISR q item).queues q =
        ((k.osQueueTake q item).osQueueAppend q (k.tasks w).wait.itemPtr).queues q := by
      rw [he, osWake_eq]
    rw [hqueue, append_queue, take_queue] at hsize hlength
    have hfifo := ho hsize hlength
    have hpos := Nat.pos_of_ne_zero hne
    have hcount := hfifo.balance.count
    have hmax := hfifo.balance.length
    have htaken : Balance ((k.osQueueTake q item).queues q) q (k.osQueueTake q item).log := by
      rw [take_queue, take_log]
      exact hfifo.balance.take hpos
    have hroom : ((k.osQueueTake q item).queues q).count < ((k.osQueueTake q item).queues q).length := by
      rw [take_queue]
      dsimp only
      omega
    refine ⟨?_, hfifo.line_still hstill ?_ ?_⟩
    · rw [hqueue, he, osWake_eq]
      dsimp only
      rw [append_log, append_queue]
      exact Balance.other (htaken.append hroom (load_length ..)) _ ⟨rfl, rfl, rfl, rfl⟩
    · rw [hqueue, append_queue, take_queue]
      dsimp only
      omega
    · rw [hqueue, append_queue, take_queue]
  · rw [he] at hstill hsize hlength ⊢
    rw [take_queue] at hsize hlength
    have hfifo := ho hsize hlength
    refine ⟨?_, fun t ht => ?_⟩
    · rw [take_queue, take_log]
      exact hfifo.balance.take (Nat.pos_of_ne_zero hne)
    · have hold := (hstill t ht).1
      rw [hline] at hold
      cases hold
  · rw [he] at hsize hlength ⊢
    exact ho hsize hlength

/-! ### Senders and receivers -/

section
variable {S : Type → Type → Type} [LinkStore S]

/-- Who gets a message: a handler, a task which is told so at once, or one which has been in line for it. -/
def Receives (q : Place c) (item : Address) (k : Kernel c S) (a : Action c) (k' : Kernel c S) : Prop :=
  a = .isrCall (.osQueueReceiveFromISR q item) ∨
  (∃ timeout, a = .call (.osQueueReceive q item timeout) ∧
    k'.frames k.currentTask = some (.returning (.osQueueReceive q item timeout) (.bool true))) ∨
  ∃ w timeout, w ∈ k.waiters (.queue q) ∧ k.frames w = some (.blocked (.osQueueReceive q item timeout)) ∧
    (k'.tasks w).result = true

/-- Whose message it is, and the memory it is copied from. -/
def Sends (q : Place c) (item : Address) (memory : Address → Byte) (k : Kernel c S) (a : Action c)
    (k' : Kernel c S) : Prop :=
  a = .isrCall (.osQueueSendFromISR q item) ∧ memory = k.memory ∨
  (∃ timeout, a = .call (.osQueueSend q item timeout) ∧ memory = k.memory ∧
    k'.frames k.currentTask = some (.returning (.osQueueSend q item timeout) (.bool true))) ∨
  ∃ w timeout, w ∈ k.waiters (.queue q) ∧ k.frames w = some (.blocked (.osQueueSend q item timeout)) ∧
    (k'.tasks w).result = true ∧ memory = k'.memory

/-- Messages the entries of an action tell of are where receivers want to have them and are those of
their senders, and nobody is told of a message who has neither got nor sent one. -/
structure Exchanged (q : Place c) (k : Kernel c S) (a : Action c) (k' : Kernel c S) (es : List (Event c)) :
    Prop where
  delivered : es.filterMap (deliveredMsg q) = [] ∨ ∃ item, Receives q item k a k' ∧
    es.filterMap (deliveredMsg q) = [load k'.memory item (k.queues q).itemSize]
  accepted : es.filterMap (acceptedMsg q) = [] ∨ ∃ item memory, Sends q item memory k a k' ∧
    es.filterMap (acceptedMsg q) = [load memory item (k.queues q).itemSize]
  received : ∀ item timeout, a = .call (.osQueueReceive q item timeout) →
    k'.frames k.currentTask = some (.returning (.osQueueReceive q item timeout) (.bool true)) →
    es.filterMap (deliveredMsg q) = [load k'.memory item (k.queues q).itemSize]
  sent : ∀ item timeout, a = .call (.osQueueSend q item timeout) →
    k'.frames k.currentTask = some (.returning (.osQueueSend q item timeout) (.bool true)) →
    es.filterMap (acceptedMsg q) = [load k.memory item (k.queues q).itemSize]
  woken : ∀ w, .woken w (some (.queue q)) true ∈ es → ∃ item timeout,
    k.frames w = some (.blocked (.osQueueReceive q item timeout)) ∧
        es.filterMap (deliveredMsg q) = [load k'.memory item (k.queues q).itemSize] ∨
      k.frames w = some (.blocked (.osQueueSend q item timeout)) ∧
        es.filterMap (acceptedMsg q) = [load k'.memory item (k.queues q).itemSize]

end

/-- The entry tells of no message of this queue. -/
def Unsaid (q : Place c) (e : Event c) : Prop :=
  deliveredMsg q e = none ∧ acceptedMsg q e = none ∧ ∀ w, e ≠ .woken w (some (.queue q)) true

section
variable {a : Action c} {es : List (Event c)} {item : Address}

/-- The entry of the call itself makes no difference. -/
theorem Exchanged.called {e : Event c} (he : Unsaid q e) (h : Exchanged q (k.emit e) a k' es) :
    Exchanged q k a k' (es ++ [e]) := by
  have hd : (es ++ [e]).filterMap (deliveredMsg q) = es.filterMap (deliveredMsg q) := by
    simp [he.1]
  have ha : (es ++ [e]).filterMap (acceptedMsg q) = es.filterMap (acceptedMsg q) := by
    simp [he.2.1]
  refine ⟨hd ▸ h.delivered, ha ▸ h.accepted, hd ▸ h.received, ha ▸ h.sent, fun w hw => ?_⟩
  rw [hd, ha]
  refine h.woken w ((List.mem_append.mp hw).resolve_right fun hw => ?_)
  exact he.2.2 w (List.mem_singleton.mp hw).symm

theorem Fifo.emit (hf : Fifo q k) {e : Event c} (he : Elsewhere q e) : Fifo q (k.emit e) :=
  ⟨hf.balance.other e he, hf.line⟩

end

/-! ### Every run -/

theorem Atom.ordinary (a : Atom c) (h : Sound k) (hg : a.guard k) (ho : Ordinary q k) : Ordinary q (a.apply k) := by
  by_cases ha : a.IsOn q
  · cases a with
    | send u item =>
      rw [show u = q from ha]
      exact send_ordinary h item ho
    | receive u item =>
      rw [show u = q from ha]
      exact receive_ordinary h item ho
    | queueInit u itemSize length =>
      rw [show u = q from ha]
      exact queueInit_ordinary itemSize length
    | _ => exact absurd ha id
  · by_cases hs : ∃ call timeout, a = .sleep call (some (.queue q)) timeout
    · obtain ⟨call, timeout, rfl⟩ := hs
      exact sleep_ordinary hg ho
    · obtain ⟨es, he, hw⟩ := a.grows h hg
      exact ho.elsewhere he (fun e hm => a.elsewhere ha e (hw e hm)) (a.other_queue h hg ha) fun t ht =>
        a.still_waits h hg (.queue q) (fun call timeout hx => hs ⟨call, timeout, hx⟩) ht

theorem init_ordinary (q : Place c) : Ordinary q (osInit c Lists) := fun hsize => absurd hsize (Nat.lt_irrefl 0)

/-- The queue as the list kernel has it. -/
theorem reachable_fifo {k : Kernel c Links} (h : Reachable k) (q : Place c) (hsize : 0 < (k.queues q).itemSize)
    (hlength : 0 < (k.queues q).length) : ∃ l : ListKernel c, Rest l ∧ Sim k l ∧ Fifo q l := by
  obtain ⟨l, hl, hs⟩ := reachable_lists h
  have ho : Ordinary q l := reachable_keeps hl (init_ordinary q) fun _ a hs hg ho => a.ordinary hs hg ho
  rw [hs.queues] at hsize hlength
  exact ⟨l, rest_of_reachable hl, hs, ho hsize hlength⟩

/-- The same on links. -/
theorem Exchanged.of_sim {kl kl' : Kernel c Links} {a : Action c} {es : List (Event c)} (h : Exchanged q k a k' es)
    (hs : Sim kl k) (hs' : Sim kl' k') : Exchanged q kl a kl' es := by
  have hw : kl.waiters (.queue q) = k.waiters (.queue q) := hs.links_list _
  obtain ⟨hd, ha, hr, hsent, hwoken⟩ := h
  unfold Receives at hd
  unfold Sends at ha
  refine ⟨?_, ?_, ?_, ?_, ?_⟩
  · unfold Receives
    rwa [hw, hs.queues, hs.current, hs.frames, hs'.frames, hs'.tasks, hs'.memory]
  · unfold Sends
    rwa [hw, hs.queues, hs.current, hs.frames, hs.memory, hs'.frames, hs'.tasks, hs'.memory]
  · rwa [hs.queues, hs.current, hs'.frames, hs'.memory]
  · rwa [hs.queues, hs.current, hs'.frames, hs.memory]
  · rwa [hs.queues, hs.frames, hs'.memory]

/-- Those in line wait for a message of an empty queue, or for a room of a full one. -/
theorem reachable_queue_line (k : Kernel c Links) (h : Reachable k) (q : Place c) (hsize : 0 < (k.queues q).itemSize)
    (hlength : 0 < (k.queues q).length) :
    InBounds (k.queues q) ∧
    ((∀ t ∈ k.waiters (.queue q), WaitsForMessage k q t ∧ (k.queues q).count = 0) ∨
      ∀ t ∈ k.waiters (.queue q), WaitsForRoom k q t ∧ (k.queues q).count = (k.queues q).length) := by
  obtain ⟨l, -, hs, hfifo⟩ := reachable_fifo h q hsize hlength
  have hlength' := hfifo.balance.length
  have hw : k.waiters (.queue q) = l.links (.wait (.queue q)) := hs.links_list _
  have hline : ∀ t ∈ k.waiters (.queue q), WaitsForMessage k q t ∧ (k.queues q).count = 0 ∨
      WaitsForRoom k q t ∧ (k.queues q).count = (k.queues q).length := fun t ht => by
    unfold WaitsForMessage WaitsForRoom
    rw [hs.queues, hs.frames, hs.tasks]
    exact hfifo.line t (hw ▸ ht)
  refine ⟨by rw [hs.queues]; exact hfifo.balance.toInBounds, ?_⟩
  by_cases hzero : (k.queues q).count = 0
  · refine .inl fun t ht => (hline t ht).resolve_right fun hfull => ?_
    omega
  · exact .inr fun t ht => (hline t ht).resolve_left fun hempty => hzero hempty.2

/-- Two messages for a queue with a room for one of them, whoever sends the second one has to wait. -/
def messagesSent : List (Action (Config.default 2)) :=
  [.call (.osQueueInit 0 2 1), .resume, .store 100 7, .store 200 9, .call (.osQueueSend 0 100 0), .resume,
    .call (.osTaskCreate 1 3 false), .resume, .run, .call (.osQueueSend 0 200 5)]

theorem reachable_queue_line_taken : ∃ k, steps step (osInit (Config.default 2) Links) messagesSent = some k ∧
    k.waiters (.queue 0) = [1] ∧ WaitsForRoom k 0 1 := by
  have hrun : (steps step (osInit (Config.default 2) Links) messagesSent).map
      (fun k => decide (0 < (k.queues 0).itemSize ∧ 0 < (k.queues 0).length ∧ k.waiters (.queue 0) = [1] ∧
        (k.queues 0).count = 1)) = some true := by decide +kernel
  obtain ⟨k, hk, hdec⟩ := Option.map_eq_some_iff.mp hrun
  obtain ⟨hsize, hlength, hw, hone⟩ := of_decide_eq_true hdec
  have hmem : 1 ∈ k.waiters (.queue 0) := by simp [hw]
  rcases (reachable_queue_line k (Reach.steps_reach _ (fun _ _ _ => trivial) .init hk) 0 hsize hlength).2 with hl | hl
  · have hzero := (hl 1 hmem).2
    omega
  · exact ⟨k, hk, hw, (hl 1 hmem).1⟩

end AvrOs
