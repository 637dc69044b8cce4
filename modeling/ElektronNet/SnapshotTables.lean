import Mathlib.Combinatorics.Enumerative.DoubleCounting
import ElektronNet.SnapshotDownload

/-!
# What peers put into the snapshot tables

`m_snapshot_peers` and `m_snapshot_downloads` of `net_processing.cpp` over connections, messages,
requests and whatever else the node does meanwhile.

* `PeerTables`, `TableEvent`   the tables and what happens to them
* `advertised`                 the checkpoints a peer has named since it is connected
* `numEntries_eq`              there is one entry for each of them, and no other
* `Proper`                     the events that keep the downloads in order
* `tables_bounded_iff`         the two conditions together
-/

set_option linter.unusedSectionVars false

namespace ElektronNet

open List

structure PeerTables (G : Type) extends BootstrapNode G where
  m_node_states : Finset Nat
  m_snapshot_peers : FMap Uint256 (Finset Nat)

inductive TableEvent (G : Type) where
  | connect (nodeid : Nat)
  | disconnect (nodeid : Nat)
  | message (nodeid : Nat) (gate renames : Bool) (message : PeerMessage)
  | request (env : SnapshotEnv G) (rateLimited : Bool) (stalled : Uint256 → Bool)
  /-- the chainstates and the files change -/
  | other (node : SnapshotNode G)

def peersOf (peers : FMap Uint256 (Finset Nat)) (checkpoint_hash : Uint256) : Finset Nat :=
  (peers.get checkpoint_hash).getD ∅

def forgetPeer (peers : FMap Uint256 (Finset Nat)) (nodeid : Nat) : FMap Uint256 (Finset Nat) :=
  FMap.build peers.dom fun h =>
    if ((peersOf peers h).erase nodeid).Nonempty then some ((peersOf peers h).erase nodeid) else none

def advertised {G : Type} (nodeid : Nat) (named : Option (Finset Uint256)) :
    TableEvent G → Option (Finset Uint256)
  | .connect n => if nodeid = n then some (named.getD ∅) else named
  | .disconnect n => if nodeid = n then none else named
  | .message n _ _ (.utxosnapshot _ checkpoint_hash _ _) =>
    if nodeid = n then named.map (insert checkpoint_hash) else named
  | _ => named

def advertisedBy {G : Type} (events : List (TableEvent G)) (nodeid : Nat) : Option (Finset Uint256) :=
  events.foldl (advertised nodeid) none

namespace PeerTables

section
variable {G : Type} [CommGroup G] (network_magic : MessageStart) (P : CChainParams)

def step (s : PeerTables G) : TableEvent G → PeerTables G
  | .connect nodeid => { s with m_node_states := insert nodeid s.m_node_states }
  | .disconnect nodeid =>
    { s with
      m_node_states := s.m_node_states.erase nodeid
      m_snapshot_peers := forgetPeer s.m_snapshot_peers nodeid }
  | .message nodeid gate renames message =>
    if nodeid ∈ s.m_node_states then
      { s with
        toBootstrapNode := s.toBootstrapNode.processMessage gate renames message
        m_snapshot_peers := match message with
          | .utxosnapshot _ checkpoint_hash _ _ => s.m_snapshot_peers.insert checkpoint_hash
              (insert nodeid (peersOf s.m_snapshot_peers checkpoint_hash))
          | .snapshotdata _ _ _ => s.m_snapshot_peers }
    else s
  | .request env rateLimited stalled =>
    { s with toBootstrapNode := s.toBootstrapNode.request network_magic P env rateLimited stalled }
  | .other node => { s with toSnapshotNode := node }

def run (s : PeerTables G) (events : List (TableEvent G)) : PeerTables G :=
  events.foldl (step network_magic P) s

def numEntries (s : PeerTables G) : Nat :=
  ∑ h ∈ s.m_snapshot_peers.dom, (peersOf s.m_snapshot_peers h).card

/-- only the checkpoint that was asked for last, with a size and a hash -/
def Orderly (node : BootstrapNode G) : Prop :=
  node.m_snapshot_downloads.All fun h dl => h = node.m_snapshot_bootstrap_target ∧
    0 < dl.file_size ∧ dl.file_size ≤ MAX_SNAPSHOT_FILE_SIZE ∧ dl.utxo_hash.isNull = false

/-- at most `k` entries for each connected peer, and orderly downloads -/
def Bounded (k : Nat) (s : PeerTables G) : Prop :=
  s.numEntries ≤ k * s.m_node_states.card ∧ Orderly s.toBootstrapNode

/-! ## the entries -/

/-- the tables against what the connected peers have named -/
structure Booked (s : PeerTables G) (named : Nat → Option (Finset Uint256)) : Prop where
  connected : ∀ p, p ∈ s.m_node_states ↔ (named p).isSome = true
  peers : ∀ h p, p ∈ peersOf s.m_snapshot_peers h ↔ h ∈ (named p).getD ∅

variable {s : PeerTables G} {named : Nat → Option (Finset Uint256)}

theorem mem_forgetPeer {peers : FMap Uint256 (Finset Nat)} {nodeid p : Nat} {h : Uint256} :
    p ∈ peersOf (forgetPeer peers nodeid) h ↔ p ≠ nodeid ∧ p ∈ peersOf peers h := by
  have hget : peersOf (forgetPeer peers nodeid) h = (peersOf peers h).erase nodeid := by
    rw [peersOf, forgetPeer, FMap.build_get_of_cover]
    · split
      · rfl
      · rename_i hempty
        exact (Finset.not_nonempty_iff_eq_empty.mp hempty).symm
    · intro k hk
      rw [peersOf, (FMap.get_eq_none_iff peers k).mpr hk]
      simp
  rw [hget, Finset.mem_erase]

theorem Booked.step (hs : s.Booked named) (event : TableEvent G) :
    (s.step network_magic P event).Booked fun p => advertised p (named p) event := by
  obtain ⟨hconnected, hpeers⟩ := hs
  cases event with
  | connect n =>
    refine ⟨fun p => ?_, fun h p => ?_⟩
    · show p ∈ insert n s.m_node_states ↔ _
      rw [Finset.mem_insert, hconnected, advertised]
      by_cases hp : p = n <;> simp [hp]
    · rw [advertised]
      by_cases hp : p = n <;> simp [hp, hpeers, PeerTables.step]
  | disconnect n =>
    refine ⟨fun p => ?_, fun h p => ?_⟩
    · show p ∈ s.m_node_states.erase n ↔ _
      rw [Finset.mem_erase, hconnected, advertised]
      by_cases hp : p = n <;> simp [hp]
    · show p ∈ peersOf (forgetPeer _ n) h ↔ _
      rw [mem_forgetPeer, hpeers, advertised]
      by_cases hp : p = n <;> simp [hp]
  | request env rateLimited stalled => exact ⟨hconnected, hpeers⟩
  | other node => exact ⟨hconnected, hpeers⟩
  | message n gate renames message =>
    by_cases hn : n ∈ s.m_node_states
    · cases message with
      | snapshotdata checkpoint_hash offset data =>
        rw [PeerTables.step, if_pos hn]
        exact ⟨hconnected, hpeers⟩
      | utxosnapshot checkpoint_height checkpoint_hash utxo_hash file_size =>
        obtain ⟨l, hl⟩ := Option.isSome_iff_exists.mp ((hconnected n).mp hn)
        rw [PeerTables.step, if_pos hn]
        refine ⟨fun p => ?_, fun h p => ?_⟩
        · show p ∈ s.m_node_states ↔ _
          rw [hconnected, advertised]
          by_cases hp : p = n <;> simp [hp]
        · show p ∈ ((s.m_snapshot_peers.insert checkpoint_hash _).get h).getD ∅ ↔ _
          rw [FMap.insert_get, advertised]
          have hold := hpeers h p
          by_cases hh : h = checkpoint_hash <;> by_cases hp : p = n
          · subst hp
            simp [hh, hl]
          · rw [if_neg hp, ← hold, ← hh]
            simp [hp]
          · subst hp
            rw [hl]
            rw [hl] at hold
            simpa [hh, peersOf] using hold
          · rw [if_neg hh, if_neg hp]
            exact hold
    · have hnone : named n = none := by simpa using mt (hconnected n).mpr hn
      have hsame : (fun p => advertised p (named p)
          (.message n gate renames message : TableEvent G)) = named := by
        funext p
        cases message with
        | snapshotdata checkpoint_hash offset data => rfl
        | utxosnapshot checkpoint_height checkpoint_hash utxo_hash file_size =>
          rw [advertised]
          by_cases hp : p = n
          · rw [if_pos hp, hp, hnone]
            rfl
          · rw [if_neg hp]
      show (if n ∈ s.m_node_states then _ else s).Booked _
      rw [hsame, if_neg hn]
      exact ⟨hconnected, hpeers⟩

theorem Booked.numEntries_eq (hs : s.Booked named) :
    s.numEntries = ∑ p ∈ s.m_node_states, ((named p).getD ∅).card := by
  have hcount := Finset.sum_card_bipartiteAbove_eq_sum_card_bipartiteBelow
    (s := s.m_snapshot_peers.dom) (t := s.m_node_states) fun h p => p ∈ peersOf s.m_snapshot_peers h
  rw [numEntries, Finset.sum_congr rfl fun h _ => ?_, hcount]
  · refine Finset.sum_congr rfl fun p _ => congrArg Finset.card ?_
    ext h
    rw [Finset.mem_bipartiteBelow, ← hs.peers, and_iff_right_iff_imp]
    intro hp
    by_contra hdom
    rw [peersOf, (FMap.get_eq_none_iff _ h).mpr hdom] at hp
    cases hp
  · refine congrArg Finset.card ?_
    ext p
    rw [Finset.mem_bipartiteAbove, iff_and_self, hs.peers, hs.connected]
    intro hp
    cases hnamed : named p with
    | none =>
      rw [hnamed] at hp
      cases hp
    | some l => rfl

/-! ## the downloads -/

def kept (node : BootstrapNode G) (env : SnapshotEnv G) (rateLimited : Bool)
    (stalled : Uint256 → Bool) : BootstrapNode G :=
  if env.gate && !rateLimited then node.sweep stalled else node

/-- what begins has a size and a hash, and nothing is asked for while another download is kept -/
def Proper (s : PeerTables G) : TableEvent G → Prop
  | .message nodeid gate _ (.utxosnapshot checkpoint_height checkpoint_hash utxo_hash file_size) =>
    nodeid ∈ s.m_node_states → s.Begins gate checkpoint_height checkpoint_hash file_size →
      0 < file_size ∧ utxo_hash.isNull = false
  | .request env rateLimited stalled => ∀ target,
    (s.syncState network_magic P env rateLimited stalled).maybeRequestSnapshot = some target →
      (kept s.toBootstrapNode env rateLimited stalled).m_snapshot_downloads.All fun h _ => h = target
  | _ => True

variable {node : BootstrapNode G}

theorem orderly_advertise (ho : Orderly node) (gate : Bool) (checkpoint_height : Int)
    (checkpoint_hash utxo_hash : Uint256) (file_size : Nat) :
    Orderly (node.advertise gate checkpoint_height checkpoint_hash utxo_hash file_size) ↔
      (node.Begins gate checkpoint_height checkpoint_hash file_size →
        0 < file_size ∧ utxo_hash.isNull = false) := by
  rw [node.advertise_eq]
  by_cases hb : node.Begins gate checkpoint_height checkpoint_hash file_size
  · rw [if_pos hb]
    refine ⟨fun hnew _ => ?_, fun hproper => ?_⟩
    · obtain ⟨-, hsize, -, hhash⟩ := hnew checkpoint_hash _ (FMap.insert_get_self ..)
      exact ⟨hsize, hhash⟩
    · obtain ⟨hsize, hhash⟩ := hproper hb
      exact FMap.All.insert ho ⟨hb.1.1, hsize, hb.2.1, hhash⟩
  · rw [if_neg hb]
    exact iff_of_true ho fun h => absurd h hb

theorem orderly_receiveChunk (ho : Orderly node) (renames : Bool) (checkpoint_hash : Uint256)
    (offset : Nat) (data : Bytes) : Orderly (node.receiveChunk renames checkpoint_hash offset data) := by
  rcases node.receiveChunk_cases renames checkpoint_hash offset data with
    ⟨-, hsame⟩ | ⟨-, dl, file, hc, ⟨-, hdone⟩ | ⟨completed, hgrown⟩⟩
  · rw [hsame]
    exact ho
  · rw [hdone]
    exact FMap.All.erase ho checkpoint_hash
  · rw [hgrown]
    exact FMap.All.insert ho (ho checkpoint_hash dl hc.download)

theorem orderly_kept (ho : Orderly node) (env : SnapshotEnv G) (rateLimited : Bool)
    (stalled : Uint256 → Bool) : Orderly (kept node env rateLimited stalled) := by
  unfold kept
  split
  · intro h dl hdl
    exact ho h dl (BootstrapNode.sweptDownloads_get stalled _ hdl).1
  · exact ho

/-- **an event keeps the downloads in order iff it is proper** -/
theorem orderly_step (ho : Orderly s.toBootstrapNode) (event : TableEvent G) :
    Orderly (s.step network_magic P event).toBootstrapNode ↔ s.Proper network_magic P event := by
  cases event with
  | connect n => exact iff_of_true ho trivial
  | disconnect n => exact iff_of_true ho trivial
  | other node => exact iff_of_true ho trivial
  | message n gate renames message =>
    by_cases hn : n ∈ s.m_node_states
    · cases message with
      | snapshotdata checkpoint_hash offset data =>
        rw [PeerTables.step, if_pos hn]
        exact iff_of_true (orderly_receiveChunk ho renames checkpoint_hash offset data) trivial
      | utxosnapshot checkpoint_height checkpoint_hash utxo_hash file_size =>
        rw [PeerTables.step, if_pos hn, Proper, forall_prop_of_true hn]
        exact orderly_advertise ho gate checkpoint_height checkpoint_hash utxo_hash file_size
    · show Orderly (if n ∈ s.m_node_states then _ else s).toBootstrapNode ↔ _
      rw [if_neg hn]
      cases message with
      | snapshotdata checkpoint_hash offset data => exact iff_of_true ho trivial
      | utxosnapshot checkpoint_height checkpoint_hash utxo_hash file_size =>
        exact iff_of_true ho fun h => absurd h hn
  | request env rateLimited stalled =>
    have hk := orderly_kept ho env rateLimited stalled
    show Orderly (s.toBootstrapNode.request network_magic P env rateLimited stalled) ↔ _
    unfold BootstrapNode.request Proper
    dsimp only
    split
    · rename_i hnone
      exact iff_of_true hk fun target h => by rw [hnone] at h; cases h
    · rename_i target htarget
      refine ⟨fun hnew t ht h dl hdl => ?_, fun hproper h dl hdl => ?_⟩
      · obtain rfl := Option.some.inj (htarget.symm.trans ht)
        exact (hnew h dl hdl).1
      · exact ⟨hproper target htarget h dl hdl, (hk h dl hdl).2⟩

/-! ## histories -/

theorem forall_prefix_concat {α : Type} {Q : List α → α → Prop} {l : List α} {a : α}
    (h : ∀ k e, k ++ [e] <+: l → Q k e) (ha : Q l a) : ∀ k e, k ++ [e] <+: l ++ [a] → Q k e := by
  intro k e hk
  rcases prefix_concat_iff.mp hk with heq | hk
  · obtain ⟨rfl, hae⟩ := append_inj' heq rfl
    obtain rfl := singleton_inj.mp hae
    exact ha
  · exact h k e hk

theorem run_concat (s : PeerTables G) (events : List (TableEvent G)) (event : TableEvent G) :
    s.run network_magic P (events ++ [event]) =
      (s.run network_magic P events).step network_magic P event := foldl_concat ..

theorem booked_run (hstates : s.m_node_states = ∅) (hpeers : s.m_snapshot_peers = FMap.empty)
    (events : List (TableEvent G)) : (s.run network_magic P events).Booked (advertisedBy events) := by
  induction events using List.reverseRecOn with
  | nil =>
    refine ⟨fun p => ?_, fun h p => ?_⟩
    · show p ∈ s.m_node_states ↔ _
      simp [hstates, advertisedBy]
    · show p ∈ peersOf s.m_snapshot_peers h ↔ _
      simp [hpeers, advertisedBy, peersOf]
  | append_singleton events event ih =>
    rw [run_concat]
    have hnamed : advertisedBy (events ++ [event]) = fun p => advertised p (advertisedBy events p) event :=
      funext fun p => foldl_concat ..
    rw [hnamed]
    exact ih.step network_magic P event

/-- **The tables stay in bounds iff the connected peers have not named too many checkpoints between them,
and every event is proper**: a peer may name as many as it likes, and the size and the hash are what it
says. -/
theorem tables_bounded_iff (hstates : s.m_node_states = ∅) (hpeers : s.m_snapshot_peers = FMap.empty)
    (hdownloads : s.m_snapshot_downloads = FMap.empty) (k : Nat) (events : List (TableEvent G)) :
    (∀ l, l <+: events → (s.run network_magic P l).Bounded k) ↔
      (∀ l, l <+: events → ∑ p ∈ (s.run network_magic P l).m_node_states,
          ((advertisedBy l p).getD ∅).card ≤ k * (s.run network_magic P l).m_node_states.card) ∧
      ∀ l event, l ++ [event] <+: events → (s.run network_magic P l).Proper network_magic P event := by
  have hentries := fun l => (booked_run network_magic P hstates hpeers l).numEntries_eq
  constructor
  · intro h
    refine ⟨fun l hl => hentries l ▸ (h l hl).1, fun l event hl => ?_⟩
    have hnow := (h l ((prefix_append l [event]).trans hl)).2
    have hnext := (h _ hl).2
    rw [run_concat] at hnext
    exact (orderly_step network_magic P hnow event).mp hnext
  · rintro ⟨hnamed, hproper⟩ l hl
    refine ⟨hentries l ▸ hnamed l hl, ?_⟩
    induction l using List.reverseRecOn with
    | nil =>
      show Orderly s.toBootstrapNode
      rw [Orderly, hdownloads]
      exact FMap.all_empty _
    | append_singleton l event ih =>
      rw [run_concat]
      have hnow := ih ((prefix_append l [event]).trans hl)
      exact (orderly_step network_magic P hnow event).mpr (hproper l event hl)

theorem nonempty_step (hs : s.m_snapshot_peers.All fun _ peers => peers.Nonempty)
    (event : TableEvent G) :
    (s.step network_magic P event).m_snapshot_peers.All fun _ peers => peers.Nonempty := by
  cases event with
  | disconnect n =>
    intro h peers hget
    simp only [PeerTables.step, forgetPeer, FMap.build_get] at hget
    grind
  | message n gate renames message =>
    by_cases hn : n ∈ s.m_node_states <;> cases message <;> simp only [PeerTables.step, hn, if_true, if_false]
    · exact FMap.All.insert hs (Finset.insert_nonempty _ _)
    all_goals exact hs
  | connect n | request env rateLimited stalled | other node => exact hs

/-- **`m_snapshot_peers` holds what the connected peers have named, and nothing else**: a checkpoint whose
last peer has left has no entry -/
theorem tables_exact (node : BootstrapNode G) (events : List (TableEvent G)) (h : Uint256) :
    let s := PeerTables.run network_magic P ⟨node, ∅, FMap.empty⟩ events
    (∀ p, p ∈ peersOf s.m_snapshot_peers h ↔ p ∈ s.m_node_states ∧ h ∈ (advertisedBy events p).getD ∅) ∧
      (h ∈ s.m_snapshot_peers.dom ↔ ∃ p ∈ s.m_node_states, h ∈ (advertisedBy events p).getD ∅) := by
  intro s
  have hbooked : s.Booked (advertisedBy events) := booked_run network_magic P rfl rfl events
  have hconnected : ∀ p, h ∈ (advertisedBy events p).getD ∅ → p ∈ s.m_node_states := by
    intro p
    rw [hbooked.connected]
    cases advertisedBy events p <;> simp
  have hnonempty : s.m_snapshot_peers.All fun _ peers => peers.Nonempty :=
    foldlRecOn (motive := fun s : PeerTables G => s.m_snapshot_peers.All fun _ peers => peers.Nonempty)
      events _ (FMap.all_empty _) fun _ hs event _ => nonempty_step network_magic P hs event
  refine ⟨fun p => (hbooked.peers h p).trans (iff_and_self.mpr (hconnected p)), ?_⟩
  rw [s.m_snapshot_peers.mem_dom]
  cases hget : s.m_snapshot_peers.get h with
  | none => simp [← hbooked.peers, peersOf, hget]
  | some peers =>
    obtain ⟨p, hp⟩ := hnonempty h peers hget
    have hnamed := (hbooked.peers h p).mp (by rwa [peersOf, hget])
    exact iff_of_true rfl ⟨p, hconnected p hnamed, hnamed⟩

end

section
open SnapshotNode

def sampleTables : PeerTables (Multiplicative ℤ) := ⟨sampleAsking, ∅, FMap.empty⟩

def sampleRun (events : List (TableEvent (Multiplicative ℤ))) : PeerTables (Multiplicative ℤ) :=
  sampleTables.run sampleMagic ⟨regTestParams, []⟩ (.connect 1 :: events)

/-- the checkpoint is asked for and advertised -/
def sampleServes : List (TableEvent (Multiplicative ℤ)) :=
  [.request sampleSnapshotEnv false fun _ => false,
    .message 1 true true (.utxosnapshot 100 (sampleId 100) (sampleId 2) 5)]

theorem tables_bounded_iff_served : (sampleRun sampleServes).Bounded 1 ∧
    ((sampleRun sampleServes).m_snapshot_downloads.get (sampleId 100)).isSome = true := by
  refine ⟨(tables_bounded_iff sampleMagic ⟨regTestParams, []⟩ (s := sampleTables) rfl rfl rfl 1
    (.connect 1 :: sampleServes)).mpr ⟨fun l hl => ?_, ?_⟩ _ prefix_rfl, by decide +kernel⟩
  · rw [← mem_inits] at hl
    simp only [sampleServes, inits_cons, inits, map_cons, map_nil, mem_cons, not_mem_nil, or_false] at hl
    rcases hl with rfl | rfl | rfl | rfl <;> decide +kernel
  · have h₁ := forall_prefix_concat (Q := fun l event => PeerTables.Proper sampleMagic ⟨regTestParams, []⟩
      (sampleTables.run sampleMagic ⟨regTestParams, []⟩ l) event) (l := []) (a := TableEvent.connect 1)
      (fun l event hl => by simp at hl) trivial
    have h₂ := forall_prefix_concat (a := TableEvent.request sampleSnapshotEnv false fun _ => false) h₁
      fun target _ => FMap.all_empty _
    exact forall_prefix_concat h₂ fun _ _ => ⟨by decide, by decide⟩

def sampleAdvert (h : Uint256) : TableEvent (Multiplicative ℤ) :=
  .message 1 true true (.utxosnapshot 100 h Uint256.zero 0)

theorem advertisedBy_sampleAdvert (l : List Uint256) (p : Nat) :
    advertisedBy (.connect 1 :: l.map sampleAdvert) p = if p = 1 then some l.toFinset else none := by
  induction l using List.reverseRecOn with
  | nil => rfl
  | append_singleton l h ih =>
    rw [map_append, ← cons_append, advertisedBy, map_singleton, foldl_concat,
      ← advertisedBy, ih]
    by_cases hp : p = 1 <;> simp [hp, sampleAdvert, advertised]

/-- **one peer fills the tables**: it names as many checkpoints as it likes, and for the one that was
asked for it offers no bytes and no hash -/
theorem one_peer_fills_tables :
    (∀ l : List Uint256, l.Nodup → (sampleRun (l.map sampleAdvert)).m_node_states = {1} ∧
      (sampleRun (l.map sampleAdvert)).numEntries = l.length) ∧
    ∃ dl, (sampleRun [.request sampleSnapshotEnv false fun _ => false,
        sampleAdvert (sampleId 100)]).m_snapshot_downloads.get (sampleId 100) = some dl ∧
      dl.file_size = 0 ∧ dl.utxo_hash = Uint256.zero := by
  refine ⟨fun l hl => ?_, by decide +kernel⟩
  have hbooked := booked_run sampleMagic ⟨regTestParams, []⟩ (s := sampleTables) rfl rfl
    (.connect 1 :: l.map sampleAdvert)
  have hstates : (sampleRun (l.map sampleAdvert)).m_node_states = {1} := by
    ext p
    rw [sampleRun, hbooked.connected, advertisedBy_sampleAdvert]
    by_cases hp : p = 1 <;> simp [hp]
  refine ⟨hstates, hbooked.numEntries_eq.trans ?_⟩
  show ∑ p ∈ (sampleRun (l.map sampleAdvert)).m_node_states, _ = _
  rw [hstates, Finset.sum_singleton, advertisedBy_sampleAdvert]
  exact toFinset_card_of_nodup hl

end

end PeerTables

end ElektronNet
