import ElektronNet.SnapshotTables

/-!
# A download from one honest peer

The requests of `SendMessages`, the answers of the `GETSNAPSHOTDATA` handler, the chunks that come back,
and the sweep of `MaybeRequestSnapshot`, which gives up a download after six hours or after half an hour
without a chunk.  What is on its way is a queue; the calls and the arrivals interleave freely.

* `Transfer`            the downloader, its peer and the requests between them
* `Holds`, `Lost`       the first `m` bytes have arrived, and are in the file; or the download is over
* `Holds.receiveChunk`, `Holds.sweep`   an answer to a request at or below `m`, and a sweep
* `transfer_exact`      the file is the served one; the answers are counted where no request is repeated and
                        the download is not given up
* `request_repeated`    a slow answer is asked for twice
-/

set_option linter.unusedSectionVars false

namespace ElektronNet

open List

def SNAPSHOT_CHUNK_SIZE : Nat := 1024 * 1024

def MAX_SNAPSHOT_CHUNK : Nat := 1024 * 1024

def getNextMissingOffset (file_size : Nat) (ranges : List (Nat × Nat)) : Nat :=
  if file_size = 0 then 0
  else match ranges with
    | [] => 0
    | r :: _ => if r.1 > 0 then 0 else r.2

/-- the data that `GETSNAPSHOTDATA` is answered with -/
def snapshotData (file : Bytes) (offset length : Nat) : Option Bytes :=
  let length := if length > MAX_SNAPSHOT_CHUNK then MAX_SNAPSHOT_CHUNK else length
  if offset < file.length then
    let length := if offset + length > file.length then file.length - offset else length
    some ((file.drop offset).take length)
  else none

/-- what the peer has advertised, and the file that it serves -/
structure Offer where
  checkpoint_height : Int
  checkpoint_hash : Uint256
  utxo_hash : Uint256
  file : Bytes
  hash_ne : utxo_hash.isNull = false
  nonempty : 0 < file.length

structure Transfer (G : Type) extends BootstrapNode G where
  start_time : Int
  last_progress_time : Int
  last_request_time : Option Int
  m_last_snapshot_chunk_served : Int
  /-- the offsets that are asked for and not answered yet, the oldest first -/
  requests : List Nat
  answered : Nat

inductive TransferEvent where
  | send (now : Int)
  /-- the peer looks at the oldest request at this time, and its answer arrives -/
  | answer (now : Int) (renames : Bool)
  /-- the sweep, which looks at the other downloads as well -/
  | sweep (now : Int) (others : Uint256 → Bool)

section
variable {G : Type} [CommGroup G]

def Transfer.waits (t : Transfer G) (now : Int) : Bool :=
  t.last_request_time.any fun time => now - time < 10

/-- the sweep gives the download up -/
def Transfer.stalled (t : Transfer G) (now : Int) : Bool :=
  decide (now - t.start_time > 6 * 60 * 60) || decide (now - t.last_progress_time > 30 * 60)

/-- no request goes out while another one is on its way, a file can be renamed, and the download is not
given up -/
def Transfer.Prompt (t : Transfer G) : TransferEvent → Prop
  | .send now => t.requests = [] ∨ t.waits now = true
  | .answer _ renames => renames = true
  | .sweep now _ => t.stalled now = false

namespace Offer

variable (S : Offer)

def numChunks : Nat := (S.file.length + (SNAPSHOT_CHUNK_SIZE - 1)) / SNAPSHOT_CHUNK_SIZE

/-- the file while it is written, and with its name -/
abbrev temp : FileName := tempPath S.checkpoint_height S.checkpoint_hash

abbrev path : FileName := finalPath S.checkpoint_height S.checkpoint_hash

/-- the round of `SendMessages` for the download -/
def sendMessages (t : Transfer G) (now : Int) : Transfer G :=
  match t.m_snapshot_downloads.get S.checkpoint_hash with
  | none => t
  | some dl =>
    if dl.completed = true ∨ dl.file_size = 0 then t
    else
      let offset := getNextMissingOffset dl.file_size dl.received_ranges
      if offset < dl.file_size then
        if t.waits now then t
        else { t with last_request_time := some now, requests := t.requests ++ [offset] }
      else t

def answer (t : Transfer G) (now : Int) (renames : Bool) : Transfer G :=
  match t.requests with
  | [] => t
  | offset :: requests =>
    -- the peer serves a chunk every two seconds, and forgets what is asked for in between
    if now - t.m_last_snapshot_chunk_served < 2 then { t with requests := requests }
    else
      match snapshotData S.file offset SNAPSHOT_CHUNK_SIZE with
      | none => { t with requests := requests, m_last_snapshot_chunk_served := now }
      | some data =>
        { t with
          toBootstrapNode := t.toBootstrapNode.receiveChunk renames S.checkpoint_hash offset data
          last_progress_time := if t.accepts S.checkpoint_hash offset data then now
            else t.last_progress_time
          last_request_time := none
          m_last_snapshot_chunk_served := now
          requests := requests
          answered := t.answered + 1 }

def step (t : Transfer G) : TransferEvent → Transfer G
  | .send now => S.sendMessages t now
  | .answer now renames => S.answer t now renames
  | .sweep now others =>
    { t with toBootstrapNode := t.toBootstrapNode.sweep fun h =>
        if h = S.checkpoint_hash then t.stalled now else others h }

def run (t : Transfer G) (events : List TransferEvent) : Transfer G := events.foldl S.step t

/-! ## what has arrived -/

def prefixRanges (m : Nat) : List (Nat × Nat) := if m = 0 then [] else [(0, m)]

theorem getNextMissingOffset_prefix {m n : Nat} (hn : 0 < n) :
    getNextMissingOffset n (prefixRanges m) = m := by
  unfold getNextMissingOffset prefixRanges
  by_cases hm : m = 0 <;> simp [hm, hn.ne']

theorem rangesComplete_prefix {m n : Nat} (hm : 0 < m) (hle : m ≤ n) :
    rangesComplete n (prefixRanges m) = true ↔ m = n := by
  have hn : n ≠ 0 := by omega
  simp only [rangesComplete, prefixRanges, hm.ne', if_false, head?_cons, Option.any_some]
  simp [hn, hle.ge_iff_eq]

variable {offset length : Nat} {node : BootstrapNode G}

theorem addRange_prefix {m : Nat} (ho : offset ≤ m) (hl : 0 < length) :
    addRange (prefixRanges m) offset length = prefixRanges (max (offset + length) m) := by
  have hnew : prefixRanges (max (offset + length) m) = [(0, max (offset + length) m)] :=
    if_neg (by omega)
  rw [addRange, if_neg (by omega), hnew, prefixRanges]
  by_cases hm : m = 0
  · simp [hm, mergeRanges, Nat.le_zero.mp (hm ▸ ho)]
  · by_cases hzero : offset = 0
    · simp [hm, hzero, mergeRanges]
    · simp [hm, Nat.pos_of_ne_zero hzero, ho, mergeRanges]

theorem length_slice {file : Bytes} (h : offset + length ≤ file.length) :
    ((file.drop offset).take length).length = length := by
  rw [length_take, length_drop]
  omega

theorem writeAt_take {file : Bytes} {m : Nat} (ho : offset ≤ m) (hm : m ≤ file.length)
    (hl : offset + length ≤ file.length) :
    writeAt (file.take m) offset ((file.drop offset).take length) =
      file.take (max (offset + length) m) := by
  have hmax : max (offset + length) m = offset + length + (m - (offset + length)) := by omega
  rw [writeAt, length_slice hl, length_take, hmax, take_add, take_add, take_take,
    drop_take, show min offset m = offset by omega, show offset - min m file.length = 0 by omega]
  simp

/-- the first `m` bytes have arrived; with all of them the file has its name -/
structure Holds (node : BootstrapNode G) (m : Nat) : Prop where
  le : m ≤ S.file.length
  going : m < S.file.length → node.m_snapshot_downloads.get S.checkpoint_hash =
      some ⟨S.checkpoint_height, S.file.length, prefixRanges m, false, S.utxo_hash⟩ ∧
    node.snapshots.read S.temp = some (S.file.take m) ∧
    node.snapshots.contains (S.path ++ HASH) = true ∧
    node.snapshots.contains S.path = false
  done : m = S.file.length → node.m_snapshot_downloads.get S.checkpoint_hash = none ∧
    node.snapshots.read S.path = some S.file

/-- the download is given up, or its file has not got its name -/
def Lost (node : BootstrapNode G) : Prop :=
  node.snapshots.contains S.path = false ∧
    ∀ dl, node.m_snapshot_downloads.get S.checkpoint_hash = some dl → dl.completed = true

variable {S} {m : Nat}

theorem contains_of_read {d : Directory} {fname : FileName} {bytes : Bytes} (h : d.read fname = some bytes) :
    d.contains fname = true := by
  obtain ⟨f, hf, -⟩ := Option.bind_eq_some_iff.mp h
  exact any_eq_true.mpr ⟨f, mem_of_find?_eq_some hf, by simpa using find?_some hf⟩

theorem contains_same {d d' : Directory} {fname : FileName} (h : Directory.Same d d' fname) :
    d'.contains fname = d.contains fname := by
  rw [Bool.eq_iff_iff, Directory.contains_iff, Directory.contains_iff]
  exact h.2

theorem Holds.full_iff (h : S.Holds node m) :
    node.snapshots.contains S.path = true ↔ m = S.file.length := by
  rcases Nat.lt_or_eq_of_le h.le with hlt | hall
  · rw [(h.going hlt).2.2.2]
    exact iff_of_false Bool.false_ne_true hlt.ne
  · exact iff_of_true (contains_of_read (h.done hall).2) hall

/-- the other files of the download while its bytes are written -/
theorem contains_write_temp (d : Directory) (bytes : Bytes) :
    (d.write S.temp bytes).contains (S.path ++ HASH) = d.contains (S.path ++ HASH) ∧
    (d.write S.temp bytes).contains S.path = d.contains S.path :=
  ⟨contains_same (d.write_same bytes (tempPath_ne_hash _ _ _).symm),
    contains_same (d.write_same bytes (tempPath_ne_final _ _ _ _).symm)⟩

/-- **an answer at or below what has arrived** -/
theorem Holds.receiveChunk (h : S.Holds node m) (renames : Bool)
    (ho : offset ≤ m) (hl : 0 < length) (hle : offset + length ≤ S.file.length) :
    S.Holds (node.receiveChunk renames S.checkpoint_hash offset ((S.file.drop offset).take length))
        (max (offset + length) m) ∨
      renames = false ∧
        S.Lost (node.receiveChunk renames S.checkpoint_hash offset ((S.file.drop offset).take length)) := by
  have hlen := length_slice hle
  rcases Nat.lt_or_eq_of_le h.le with hlt | hall
  · obtain ⟨hget, hread, hside, hfinal⟩ := h.going hlt
    have hwrite := contains_write_temp (S := S) node.snapshots (S.file.take (max (offset + length) m))
    rw [hside, hfinal] at hwrite
    have hne : (S.file.drop offset).take length ≠ [] := ne_nil_of_length_pos (by omega)
    rw [BootstrapNode.receiveChunk, hget]
    dsimp only
    rw [if_pos ⟨rfl, by omega, hne, by omega⟩, hread]
    dsimp only
    rw [hlen, addRange_prefix ho hl, writeAt_take ho h.le hle]
    have hcomplete := rangesComplete_prefix (show 0 < max (offset + length) m by omega) (max_le hle h.le)
    by_cases hfull : max (offset + length) m = S.file.length
    · rw [if_pos ⟨hcomplete.mpr hfull, hwrite.1, S.hash_ne⟩]
      cases renames with
      | true =>
        refine .inl ⟨hfull.le, fun hmore => absurd hfull hmore.ne, fun _ => ⟨FMap.erase_get_self .., ?_⟩⟩
        show (Directory.rename _ _ _).read _ = _
        rw [Directory.rename_read _ (tempPath_ne_final _ _ _ _), Directory.write_read_self, hfull,
          take_length]
      | false =>
        rw [if_neg Bool.false_ne_true]
        refine .inr ⟨rfl, hwrite.2, fun dl hdl => ?_⟩
        rw [show (FMap.insert _ _ _).get S.checkpoint_hash = _ from FMap.insert_get_self ..] at hdl
        cases hdl
        rfl
    · rw [if_neg fun hc => hfull (hcomplete.mp hc.1)]
      exact .inl ⟨max_le hle h.le, fun _ => ⟨FMap.insert_get_self .., Directory.write_read_self .., hwrite⟩,
        fun hend => absurd hend hfull⟩
  · rw [BootstrapNode.receiveChunk, (h.done hall).1, max_eq_right (by omega)]
    exact .inl h

theorem Lost.receiveChunk (h : S.Lost node) (renames : Bool) (offset : Nat) (data : Bytes) :
    node.receiveChunk renames S.checkpoint_hash offset data = node := by
  unfold BootstrapNode.receiveChunk
  split
  · rfl
  · rename_i dl hdl
    rw [if_neg fun hc => Bool.false_ne_true (hc.1.symm.trans (h.2 dl hdl))]

/-! ## a sweep -/

theorem swept_get {stalled : Uint256 → Bool} {l : List (Uint256 × DownloadState)} {h : Uint256}
    (hkept : ∀ e ∈ l, e.1 = h → e.2.completed = false ∧ stalled e.1 = false)
    (downloads : FMap Uint256 DownloadState) :
    (l.foldl (fun downloads e => if e.2.completed || stalled e.1 then downloads.erase e.1 else downloads)
      downloads).get h = downloads.get h := by
  induction l generalizing downloads with
  | nil => rfl
  | cons e l ih =>
    rw [foldl_cons, ih fun e' he' => hkept e' (mem_cons_of_mem e he')]
    split
    · rename_i hswept
      rw [FMap.erase_get_ne]
      rintro rfl
      obtain ⟨hcompleted, hstalled⟩ := hkept e mem_cons_self rfl
      rw [hcompleted, hstalled] at hswept
      cases hswept
    · rfl

theorem swept_final (node : BootstrapNode G) (stalled : Uint256 → Bool) (fname : FileName)
    (h : ∀ n c, fname ≠ tempPath n c) : Directory.Same node.snapshots (node.sweep stalled).snapshots fname :=
  BootstrapNode.sweptFiles_same stalled _ _ fun _ _ _ => h _ _

theorem Lost.sweep (h : S.Lost node) (stalled : Uint256 → Bool) : S.Lost (node.sweep stalled) :=
  ⟨(contains_same (swept_final node stalled _ fun _ _ => (tempPath_ne_final _ _ _ _).symm)).trans h.1,
    fun dl hdl => h.2 dl (BootstrapNode.sweptDownloads_get stalled _ hdl).1⟩

/-- **a sweep leaves the download alone or gives it up** -/
theorem Holds.sweep (h : S.Holds node m) (stalled : Uint256 → Bool) :
    S.Holds (node.sweep stalled) m ∨
      stalled S.checkpoint_hash = true ∧ S.Lost (node.sweep stalled) := by
  have hfinal := swept_final node stalled S.path
    fun _ _ => (tempPath_ne_final _ _ _ _).symm
  rcases Nat.lt_or_eq_of_le h.le with hlt | hall
  · obtain ⟨hget, hread, hside, hnot⟩ := h.going hlt
    have hmem := (FMap.mem_toList _ _ _).mpr hget
    cases hs : stalled S.checkpoint_hash with
    | true =>
      refine .inr ⟨rfl, (contains_same hfinal).trans hnot, fun dl hdl => ?_⟩
      rw [(BootstrapNode.sweptDownloads_get stalled _ hdl).2 _ hmem rfl] at hs
      cases hs
    | false =>
      refine .inl ⟨h.le, fun _ => ⟨(swept_get (fun e he heq => ?_) _).trans hget, ?_, ?_,
        (contains_same hfinal).trans hnot⟩, fun hend => absurd hend hlt.ne⟩
      · obtain ⟨hash, dl⟩ := e
        obtain rfl : hash = S.checkpoint_hash := heq
        rw [FMap.mem_toList, hget] at he
        cases he
        exact ⟨rfl, hs⟩
      · refine (BootstrapNode.sweptFiles_same stalled _ _ fun e _ hswept heq => ?_).1.trans hread
        rw [← tempPath_injective heq, hs] at hswept
        cases hswept
      · exact (contains_same (swept_final node stalled _ fun _ _ => (tempPath_ne_hash _ _ _).symm)).trans
          hside
  · obtain ⟨hnone, hread⟩ := h.done hall
    refine .inl ⟨h.le, fun hmore => absurd hall hmore.ne, fun _ => ⟨?_, hfinal.1.trans hread⟩⟩
    cases hget : (node.sweep stalled).m_snapshot_downloads.get S.checkpoint_hash with
    | none => rfl
    | some dl =>
      rw [(BootstrapNode.sweptDownloads_get stalled _ hget).1] at hnone
      cases hnone

theorem holds_advertise {gate : Bool}
    (hb : node.Begins gate S.checkpoint_height S.checkpoint_hash S.file.length)
    (htemp : node.snapshots.contains S.temp = false) :
    S.Holds (node.advertise gate S.checkpoint_height S.checkpoint_hash S.utxo_hash S.file.length) 0 := by
  have hside := node.snapshots.write_read_self (S.path ++ HASH) S.utxo_hash.data
  have hkept := contains_same (node.snapshots.write_same S.utxo_hash.data
    (tempPath_ne_hash S.checkpoint_height S.checkpoint_hash S.path))
  have hname : S.path ≠ S.path ++ HASH := fun heq => by simp [HASH] at heq
  have hfinal := contains_same (node.snapshots.write_same S.utxo_hash.data hname)
  rw [node.advertise_eq, if_pos hb]
  refine ⟨Nat.zero_le _, fun _ => ⟨FMap.insert_get_self .., ?_⟩, fun h => absurd S.nonempty (by omega)⟩
  show (begunFiles _ _ _ _).read _ = _ ∧ (begunFiles _ _ _ _).contains _ = _ ∧
    (begunFiles _ _ _ _).contains _ = _
  rw [begunFiles, if_neg (by rw [hkept, htemp]; exact Bool.false_ne_true), (contains_write_temp _ _).1,
    (contains_write_temp _ _).2, hfinal, hb.2.2]
  exact ⟨Directory.write_read_self .., contains_of_read hside, rfl⟩

/-! ## one event -/

/-- the first `m` bytes have arrived, and nothing above them is asked for -/
structure Sent (S : Offer) (t : Transfer G) (m : Nat) : Prop where
  holds : S.Holds t.toBootstrapNode m
  requests : ∀ o ∈ t.requests, o ≤ m ∧ o < S.file.length

variable {t : Transfer G}

theorem Sent.sendMessages_eq (h : S.Sent t m) (now : Int) :
    S.sendMessages t now = if m < S.file.length ∧ t.waits now = false then
      { t with last_request_time := some now, requests := t.requests ++ [m] } else t := by
  unfold Offer.sendMessages
  rcases Nat.lt_or_eq_of_le h.holds.le with hlt | hall
  · rw [(h.holds.going hlt).1]
    dsimp only
    rw [if_neg (by simp [S.nonempty.ne']), getNextMissingOffset_prefix S.nonempty]
    by_cases hw : t.waits now <;> simp [hw, hlt]
  · rw [(h.holds.done hall).1]
    simp [hall]

theorem Sent.sendMessages_due (h : S.Sent t m) (hlt : m < S.file.length) {now : Int}
    (hnow : ∀ time ∈ t.last_request_time, time + 10 ≤ now) : S.sendMessages t now =
      { t with last_request_time := some now, requests := t.requests ++ [m] } := by
  have hdue : t.waits now = false := by
    rw [Transfer.waits, Option.any_eq_false]
    intro time htime
    have := hnow time htime
    simp
    omega
  rw [h.sendMessages_eq, if_pos ⟨hlt, hdue⟩]

theorem Sent.sendMessages (h : S.Sent t m) (now : Int) : S.Sent (S.sendMessages t now) m := by
  rw [h.sendMessages_eq]
  split
  · rename_i hlt
    refine ⟨h.holds, fun o ho => ?_⟩
    rcases mem_append.mp ho with ho | ho
    · exact h.requests o ho
    · rw [mem_singleton.mp ho]
      exact ⟨le_rfl, hlt.1⟩
  · exact h

/-- what there is after the answer to a request at `offset` -/
def answeredTo (S : Offer) (offset m : Nat) : Nat :=
  max (offset + min SNAPSHOT_CHUNK_SIZE (S.file.length - offset)) m

theorem snapshotData_eq (ho : offset < S.file.length) :
    snapshotData S.file offset SNAPSHOT_CHUNK_SIZE =
      some ((S.file.drop offset).take (min SNAPSHOT_CHUNK_SIZE (S.file.length - offset))) := by
  rw [snapshotData, if_pos ho, if_neg (show ¬SNAPSHOT_CHUNK_SIZE > MAX_SNAPSHOT_CHUNK from lt_irrefl _)]
  split
  · rw [min_eq_right (by omega)]
  · rw [min_eq_left (by omega)]

/-- a request is answered -/
structure Answered (t t' : Transfer G) (now : Int) (requests : List Nat) : Prop where
  requests : t'.requests = requests
  answered : t'.answered = t.answered + 1
  served : t'.m_last_snapshot_chunk_served = now
  asked : t'.last_request_time = none
  start : t'.start_time = t.start_time
  progress : t'.last_progress_time = now ∨ t'.last_progress_time = t.last_progress_time

/-- **what an arrival does**: nothing, or a request is forgotten or answered -/
theorem Sent.answer_cases (h : S.Sent t m) (now : Int) (renames : Bool) :
    (t.requests = [] ∧ S.answer t now renames = t) ∨ ∃ offset requests, t.requests = offset :: requests ∧
      ((now - t.m_last_snapshot_chunk_served < 2 ∧
          S.answer t now renames = { t with requests := requests }) ∨
        (S.Sent (S.answer t now renames) (S.answeredTo offset m) ∨
            renames = false ∧ S.Lost (S.answer t now renames).toBootstrapNode) ∧
          Answered t (S.answer t now renames) now requests) := by
  unfold Offer.answer
  cases hr : t.requests with
  | nil => exact .inl ⟨rfl, rfl⟩
  | cons offset requests =>
    obtain ⟨ho, hlt⟩ := h.requests offset (hr ▸ mem_cons_self)
    refine .inr ⟨offset, requests, rfl, ?_⟩
    dsimp only
    by_cases hnow : now - t.m_last_snapshot_chunk_served < 2
    · exact .inl ⟨hnow, if_pos hnow⟩
    · rw [if_neg hnow, snapshotData_eq hlt]
      have hpos : 0 < min SNAPSHOT_CHUNK_SIZE (S.file.length - offset) := by
        have : 0 < SNAPSHOT_CHUNK_SIZE := by decide
        omega
      refine .inr ⟨(h.holds.receiveChunk renames ho hpos (by omega)).imp (fun hholds => ⟨hholds, ?_⟩) id,
        rfl, rfl, rfl, rfl, rfl, ?_⟩
      · intro o ho'
        have := h.requests o (hr ▸ mem_cons_of_mem offset ho')
        exact ⟨this.1.trans (le_max_right ..), this.2⟩
      · dsimp only
        split
        · exact .inl rfl
        · exact .inr rfl

theorem Sent.answer_next (h : S.Sent t m) {requests : List Nat}
    (hr : t.requests = offset :: requests) {now : Int} (hnow : t.m_last_snapshot_chunk_served + 2 ≤ now) :
    S.Sent (S.answer t now true) (S.answeredTo offset m) ∧
      Answered t (S.answer t now true) now requests := by
  rcases h.answer_cases now true with ⟨hnil, -⟩ | ⟨offset', requests', hr', ⟨hearly, -⟩ | ⟨hsent, hnext⟩⟩
  · rw [hr] at hnil
    cases hnil
  · omega
  · obtain ⟨rfl, rfl⟩ := List.cons.inj (hr.symm.trans hr')
    exact ⟨hsent.resolve_right fun hc => Bool.false_ne_true hc.1.symm, hnext⟩

theorem Sent.sweep (h : S.Sent t m) {now : Int} (others : Uint256 → Bool) :
    S.Sent (S.step t (.sweep now others)) m ∨
      t.stalled now = true ∧ S.Lost (S.step t (.sweep now others)).toBootstrapNode := by
  rcases h.holds.sweep fun h => if h = S.checkpoint_hash then t.stalled now else others h with hholds | hlost
  · exact .inl ⟨hholds, h.requests⟩
  · rw [if_pos rfl] at hlost
    exact .inr hlost

theorem Sent.step (h : S.Sent t m) (event : TransferEvent) :
    (∃ m', S.Sent (S.step t event) m') ∨ S.Lost (S.step t event).toBootstrapNode := by
  cases event with
  | send now => exact .inl ⟨m, h.sendMessages now⟩
  | answer now renames =>
    show (∃ m', S.Sent (S.answer t now renames) m') ∨ S.Lost (S.answer t now renames).toBootstrapNode
    rcases h.answer_cases now renames with
      ⟨-, hsame⟩ | ⟨offset, requests, hr, ⟨-, hforgot⟩ | ⟨hsent, -⟩⟩
    · rw [hsame]
      exact .inl ⟨m, h⟩
    · rw [hforgot]
      exact .inl ⟨m, h.holds, fun o ho => h.requests o (hr ▸ mem_cons_of_mem offset ho)⟩
    · exact hsent.imp (fun hs => ⟨_, hs⟩) And.right
  | sweep now others => exact (h.sweep others).imp (fun hs => ⟨m, hs⟩) And.right

theorem Lost.step (h : S.Lost t.toBootstrapNode) (event : TransferEvent) :
    S.Lost (S.step t event).toBootstrapNode := by
  cases event with
  | send now =>
    show S.Lost (S.sendMessages t now).toBootstrapNode
    unfold Offer.sendMessages
    split
    · exact h
    · dsimp only
      split_ifs <;> exact h
  | answer now renames =>
    show S.Lost (S.answer t now renames).toBootstrapNode
    unfold Offer.answer
    split
    · exact h
    · split
      · exact h
      · split
        · exact h
        · rw [h.receiveChunk]
          exact h
  | sweep now others => exact h.sweep _

/-- an answer comes two seconds after the last one -/
theorem answered_step (S : Offer) (t : Transfer G) (event : TransferEvent) :
    2 * ((S.step t event).answered - t.answered : Int) ≤
      (S.step t event).m_last_snapshot_chunk_served - t.m_last_snapshot_chunk_served := by
  cases event with
  | send now =>
    show 2 * ((S.sendMessages t now).answered - t.answered : Int) ≤
      (S.sendMessages t now).m_last_snapshot_chunk_served - _
    unfold Offer.sendMessages
    split
    · omega
    · dsimp only
      split_ifs <;> simp
  | answer now renames =>
    show 2 * ((S.answer t now renames).answered - t.answered : Int) ≤
      (S.answer t now renames).m_last_snapshot_chunk_served - _
    unfold Offer.answer
    split
    · omega
    · split
      · dsimp only
        omega
      · split <;> dsimp only <;> omega
  | sweep now others =>
    show 2 * ((t.answered : Int) - t.answered) ≤ t.m_last_snapshot_chunk_served - _
    omega

/-- every answer has brought a chunk, and the next one will -/
structure InStep (S : Offer) (t : Transfer G) (m : Nat) : Prop where
  sent : S.Sent t m
  count : m = min S.file.length (t.answered * SNAPSHOT_CHUNK_SIZE)
  last : (t.answered - 1) * SNAPSHOT_CHUNK_SIZE < S.file.length
  pending : t.requests = [] ∨ t.requests = [m]

theorem InStep.step (h : S.InStep t m) {event : TransferEvent} (hp : t.Prompt event) :
    ∃ m', S.InStep (S.step t event) m' := by
  cases event with
  | send now =>
    have hsent := h.sent.sendMessages now
    show ∃ m', S.InStep (S.sendMessages t now) m'
    rw [h.sent.sendMessages_eq] at hsent ⊢
    by_cases hsend : m < S.file.length ∧ t.waits now = false
    · have hnone : t.requests = [] := hp.resolve_right (by simp [hsend.2])
      rw [if_pos hsend] at hsent ⊢
      exact ⟨m, hsent, h.count, h.last, .inr (by simp [hnone])⟩
    · rw [if_neg hsend]
      exact ⟨m, h⟩
  | sweep now others =>
    have hkept : t.stalled now = false := hp
    refine ⟨m, (h.sent.sweep others).resolve_right fun hc => ?_, h.count, h.last, h.pending⟩
    rw [hkept] at hc
    cases hc.1
  | answer now renames =>
    obtain rfl : renames = true := hp
    show ∃ m', S.InStep (S.answer t now true) m'
    rcases h.sent.answer_cases now true with ⟨-, hsame⟩ | ⟨offset, requests, hr, hcase⟩
    · rw [hsame]
      exact ⟨m, h⟩
    · obtain ⟨rfl, rfl⟩ : m = offset ∧ [] = requests := by
        rcases h.pending with hp | hp
        · rw [hp] at hr
          cases hr
        · exact List.cons.inj (hp.symm.trans hr)
      rcases hcase with ⟨-, hforgot⟩ | ⟨hsent, hans⟩
      · rw [hforgot]
        exact ⟨m, ⟨h.sent.holds, fun o ho => absurd ho not_mem_nil⟩, h.count, h.last, .inl rfl⟩
      · have hlt := (h.sent.requests m (hr ▸ mem_cons_self)).2
        have hcount := h.count
        refine ⟨_, hsent.resolve_right fun hc => Bool.false_ne_true hc.1.symm, ?_, ?_, .inl hans.requests⟩
        · rw [hans.answered, answeredTo]
          unfold SNAPSHOT_CHUNK_SIZE at *
          omega
        · rw [hans.answered, Nat.add_sub_cancel]
          omega

theorem InStep.finished_iff (h : S.InStep t m) : t.answered ≤ S.numChunks ∧
    (t.snapshots.contains S.path = true ↔ t.answered = S.numChunks) := by
  have hlast := h.last
  have hcount := h.count
  have hle : t.answered ≤ S.numChunks := by
    unfold numChunks SNAPSHOT_CHUNK_SIZE at *
    omega
  have hall : m = S.file.length ↔ t.answered = S.numChunks := by
    unfold numChunks SNAPSHOT_CHUNK_SIZE at *
    omega
  rw [← hall]
  exact ⟨hle, h.sent.holds.full_iff⟩

theorem InStep.proceeds (h : S.InStep t m) (hmore : t.answered < S.numChunks) {now later : Int}
    (hnow : ∀ time ∈ t.last_request_time, time + 10 ≤ now)
    (hlater : t.m_last_snapshot_chunk_served + 2 ≤ later) :
    (S.answer (S.sendMessages t now) later true).answered = t.answered + 1 := by
  have hlt : m < S.file.length := by
    have hcount := h.count
    unfold numChunks SNAPSHOT_CHUNK_SIZE at *
    omega
  have hsend := h.sent.sendMessages_due hlt hnow
  have hsent := hsend ▸ h.sent.sendMessages now
  rw [hsend]
  obtain ⟨o, l, hl⟩ : ∃ o l, t.requests ++ [m] = o :: l := exists_cons_of_ne_nil (by simp)
  exact (hsent.answer_next hl hlater).2.answered

/-! ## schedules -/

/-- the peer advertises the file at `start`; `served` is when it last served the node -/
def begun (S : Offer) (node : BootstrapNode G) (gate : Bool) (served start : Int) : Transfer G where
  toBootstrapNode :=
    node.advertise gate S.checkpoint_height S.checkpoint_hash S.utxo_hash S.file.length
  start_time := start
  last_progress_time := start
  last_request_time := none
  m_last_snapshot_chunk_served := served
  requests := []
  answered := 0

theorem sent_begun {gate : Bool}
    (hb : node.Begins gate S.checkpoint_height S.checkpoint_hash S.file.length)
    (htemp : node.snapshots.contains S.temp = false)
    (served start : Int) : S.Sent (S.begun node gate served start) 0 :=
  ⟨holds_advertise hb htemp, fun _ ho => absurd ho not_mem_nil⟩

theorem run_append (t : Transfer G) (l l' : List TransferEvent) :
    S.run t (l ++ l') = S.run (S.run t l) l' := foldl_append ..

theorem run_concat (t : Transfer G) (l : List TransferEvent) (event : TransferEvent) :
    S.run t (l ++ [event]) = S.step (S.run t l) event := foldl_concat ..

/-- **A file that gets its name is the one that was served, whatever the schedule, and the peer serves a
chunk every two seconds at most. Where no request is repeated before it is answered and the download is
not given up, that takes as many answers as the file has chunks**: no more are ever sent, and as long as
there are fewer the next one is on its way. -/
theorem transfer_exact {node : BootstrapNode G} {gate : Bool}
    (hbegins : node.Begins gate S.checkpoint_height S.checkpoint_hash S.file.length)
    (htemp : node.snapshots.contains S.temp = false) {served start : Int} {events : List TransferEvent}
    (ht : S.run (S.begun node gate served start) events = t) :
    (t.snapshots.contains S.path = true → t.snapshots.read S.path = some S.file) ∧
    served + 2 * t.answered ≤ t.m_last_snapshot_chunk_served ∧
    ((∀ l event, l ++ [event] <+: events → (S.run (S.begun node gate served start) l).Prompt event) →
      t.answered ≤ S.numChunks ∧ (t.snapshots.contains S.path = true ↔ t.answered = S.numChunks) ∧
      (t.answered < S.numChunks → ∀ now later : Int, (∀ time ∈ t.last_request_time, time + 10 ≤ now) →
        t.m_last_snapshot_chunk_served + 2 ≤ later →
        (S.run t [.send now, .answer later true]).answered = t.answered + 1)) := by
  subst ht
  have hstart := sent_begun hbegins htemp served start
  refine ⟨?_, ?_, fun hprompt => ?_⟩
  · obtain ⟨m, hm⟩ | hlost : (∃ m, S.Sent (S.run (S.begun node gate served start) events) m) ∨
        S.Lost (S.run (S.begun node gate served start) events).toBootstrapNode := by
      induction events using List.reverseRecOn with
      | nil => exact .inl ⟨0, hstart⟩
      | append_singleton l event ih =>
        rw [run_concat]
        rcases ih with ⟨m, hm⟩ | hlost
        · exact hm.step event
        · exact .inr (hlost.step event)
    · exact fun hfinal => (hm.holds.done (hm.holds.full_iff.mp hfinal)).2
    · exact fun hfinal => absurd (hlost.1.symm.trans hfinal) Bool.false_ne_true
  · induction events using List.reverseRecOn with
    | nil => simp [run, begun]
    | append_singleton l event ih =>
      have hstep := answered_step S (S.run (S.begun node gate served start) l) event
      rw [run_concat]
      omega
  · obtain ⟨m, hm⟩ : ∃ m, S.InStep (S.run (S.begun node gate served start) events) m := by
      induction events using List.reverseRecOn with
      | nil => exact ⟨0, hstart, by simp [run, begun], by simpa [run, begun] using S.nonempty, .inl rfl⟩
      | append_singleton l event ih =>
        obtain ⟨m, hm⟩ := ih fun l' event' hl => hprompt l' event' (hl.trans (prefix_append l [event]))
        rw [run_concat]
        exact hm.step (hprompt l event prefix_rfl)
    exact ⟨hm.finished_iff.1, hm.finished_iff.2, fun hmore _ _ => hm.proceeds hmore⟩

/-- of two requests for the first chunk both are answered -/
theorem Sent.repeats (h : S.Sent t 0) (hr : t.requests = []) (hw : t.last_request_time = none)
    (hserved : t.m_last_snapshot_chunk_served = 0) (hlarge : SNAPSHOT_CHUNK_SIZE < S.file.length) :
    (S.run t [.send 0, .send 10, .answer 11 true, .answer 13 true]).answered = t.answered + 2 ∧
      (S.run t [.send 0, .send 10, .answer 11 true, .answer 13 true]).snapshots.contains
        S.path = false := by
  have hfirst := h.sendMessages_due S.nonempty (show ∀ time ∈ t.last_request_time, time + 10 ≤ 0 by simp [hw])
  have h₁ := hfirst ▸ h.sendMessages 0
  have hagain := h₁.sendMessages_due S.nonempty (show ∀ time ∈ some (0 : Int), time + 10 ≤ 10 by simp)
  have h₂ := hagain ▸ h₁.sendMessages 10
  obtain ⟨h₃, hans₃⟩ := h₂.answer_next (show _ = 0 :: [0] by simp [hr])
    (show _ ≤ (11 : Int) by simp [hserved])
  obtain ⟨h₄, hans₄⟩ := h₃.answer_next hans₃.requests (show _ ≤ (13 : Int) by rw [hans₃.served]; decide)
  have hrun : S.run t [.send 0, .send 10, .answer 11 true, .answer 13 true] = S.answer (S.answer
      (S.sendMessages (S.sendMessages t 0) 10) 11 true) 13 true := rfl
  rw [hrun, hfirst, hagain]
  refine ⟨by rw [hans₄.answered, hans₃.answered], ?_⟩
  rw [Bool.eq_false_iff, ne_eq, h₄.holds.full_iff]
  unfold answeredTo
  omega

/-- the first chunk, and a sweep after it -/
def firstSwept : List TransferEvent := [.send 0, .answer 2 true, .sweep 60 fun _ => true]

theorem Sent.firstSwept (h : S.Sent t 0) (hr : t.requests = []) (hw : t.last_request_time = none)
    (hserved : t.m_last_snapshot_chunk_served = 0) (hstart : t.start_time = 0)
    (hprogress : t.last_progress_time = 0) :
    (∀ l event, l ++ [event] <+: firstSwept ++ [.send 60, .answer 62 true] → (S.run t l).Prompt event) ∧
      Answered t (S.run t firstSwept) 2 [] := by
  have hsend := h.sendMessages_due S.nonempty (show ∀ time ∈ t.last_request_time, time + 10 ≤ 0 by simp [hw])
  have hserve : t.m_last_snapshot_chunk_served + 2 ≤ 2 := by simp [hserved]
  have hasked : t.requests ++ [0] = [0] := by rw [hr, nil_append]
  obtain ⟨-, hans⟩ := (hsend ▸ h.sendMessages 0).answer_next hasked hserve
  have hfirst : Answered t (S.run t [.send 0, .answer 2 true]) 2 [] := by
    show Answered t (S.answer (S.sendMessages t 0) 2 true) 2 []
    rw [hsend]
    exact ⟨hans.requests, hans.answered, hans.served, hans.asked, hans.start, hans.progress⟩
  refine ⟨?_, hfirst.requests, hfirst.answered, hfirst.served, hfirst.asked, hfirst.start, hfirst.progress⟩
  have hstalled : (S.run t [.send 0, .answer 2 true]).stalled 60 = false := by
    rw [Transfer.stalled, hfirst.start, hstart]
    rcases hfirst.progress with hp | hp
    · rw [hp]
      decide
    · rw [hp, hprogress]
      decide
  have h₁ := PeerTables.forall_prefix_concat (Q := fun l event => (S.run t l).Prompt event) (l := [])
    (a := TransferEvent.send 0) (fun l event hl => by simp at hl) (.inl hr)
  have h₂ := PeerTables.forall_prefix_concat (a := TransferEvent.answer 2 true) h₁ rfl
  have h₃ := PeerTables.forall_prefix_concat (a := TransferEvent.sweep 60 fun _ => true) h₂ hstalled
  have h₄ := PeerTables.forall_prefix_concat (a := TransferEvent.send 60) h₃ (.inl hfirst.requests)
  exact PeerTables.forall_prefix_concat (a := TransferEvent.answer 62 true) h₄ rfl

section
open SnapshotNode

/-- a peer that serves a byte more than a chunk, for the checkpoint that was asked for -/
def sampleLarge : Offer where
  checkpoint_height := 100
  checkpoint_hash := sampleId 100
  utxo_hash := sampleId 2
  file := List.replicate (SNAPSHOT_CHUNK_SIZE + 1) 0
  hash_ne := by decide
  nonempty := by simp

def sampleRequested : BootstrapNode (Multiplicative ℤ) :=
  sampleAsking.request sampleMagic ⟨regTestParams, []⟩ sampleSnapshotEnv false fun _ => false

theorem length_sampleLarge : sampleLarge.file.length = SNAPSHOT_CHUNK_SIZE + 1 := length_replicate

theorem numChunks_sampleLarge : sampleLarge.numChunks = 2 := by
  rw [numChunks, length_sampleLarge]
  decide

theorem sampleLarge_begins : sampleRequested.Begins true sampleLarge.checkpoint_height
    sampleLarge.checkpoint_hash sampleLarge.file.length := by
  rw [length_sampleLarge]
  decide

def sampleBegun : Transfer (Multiplicative ℤ) := sampleLarge.begun sampleRequested true 0 0

theorem sampleBegun_sent : sampleLarge.Sent sampleBegun 0 :=
  sent_begun sampleLarge_begins (by decide +kernel) 0 0

/-- the first chunk, a sweep, and the last byte -/
theorem transfer_exact_swept :
    (sampleLarge.run sampleBegun (firstSwept ++ [.send 60, .answer 62 true])).snapshots.read
      (finalPath 100 (sampleId 100)) = some sampleLarge.file := by
  obtain ⟨hprompt, hans⟩ := sampleBegun_sent.firstSwept rfl rfl rfl rfl rfl
  have hfirst := (transfer_exact sampleLarge_begins (by decide +kernel)
    (show sampleLarge.run sampleBegun firstSwept = _ from rfl)).2.2
    fun l event h => hprompt l event (h.trans (prefix_append firstSwept [.send 60, .answer 62 true]))
  have hone : (sampleLarge.run sampleBegun firstSwept).answered = 1 := hans.answered
  have hcount := hfirst.2.2 (by rw [numChunks_sampleLarge]; exact hone.trans_lt (by decide)) 60 62
    (by rw [show _ = none from hans.asked]; simp) (by rw [show _ = (2 : Int) from hans.served]; decide)
  have hall := transfer_exact sampleLarge_begins (by decide +kernel)
    (show sampleLarge.run sampleBegun (firstSwept ++ [.send 60, .answer 62 true]) = _ from rfl)
  refine hall.1 ((hall.2.2 hprompt).2.1.mpr ?_)
  rw [numChunks_sampleLarge, run_append]
  exact hcount.trans (congrArg (· + 1) hone)

/-- **a slow answer is asked for twice**: both requests are answered, and a chunk is missing -/
theorem request_repeated :
    sampleLarge.numChunks = 2 ∧
    (sampleLarge.run sampleBegun [.send 0, .send 10, .answer 11 true, .answer 13 true]).answered = 2 ∧
    (sampleLarge.run sampleBegun [.send 0, .send 10, .answer 11 true, .answer 13 true]).snapshots.contains
      (finalPath 100 (sampleId 100)) = false :=
  ⟨numChunks_sampleLarge, sampleBegun_sent.repeats rfl rfl rfl (length_sampleLarge ▸ Nat.lt_succ_self _)⟩

end

end Offer

end

end ElektronNet
