import ElektronNet.Prune

/-!
# What a limited peer is asked for

`PeerManagerImpl::FindNextBlocks` and the threshold of `ProcessGetBlockData` in
`net_processing.cpp`, against the prune range of the peer.

The requester stays `NODE_NETWORK_LIMITED_MIN_BLOCKS - 2` blocks below the best block that the peer
announced, and the server refuses what is more than two blocks deeper than
`NODE_NETWORK_LIMITED_MIN_BLOCKS`.  Both are constants of the mainnet, but a node prunes by
`MandatoryPruneDepth` of its network.

* `FetchEnv`, `FetchState`        what `FindNextBlocks` reads, and what it writes
* `FetchEnv.findNextBlocks`       the blocks to ask for
* `findNextBlocks_safe_iff`       they are there exactly on the networks that prune deep enough
-/

namespace ElektronNet

open List Forest

def NODE_NETWORK_LIMITED_MIN_BLOCKS : Int := 197280

def BLOCK_DOWNLOAD_WINDOW : Int := 1024

structure ServiceFlags where
  NODE_NETWORK : Bool
  NODE_WITNESS : Bool
  NODE_NETWORK_LIMITED : Bool
deriving DecidableEq

def ServiceFlags.isLimitedPeer (their_services : ServiceFlags) : Bool :=
  !their_services.NODE_NETWORK && their_services.NODE_NETWORK_LIMITED

/-! ## the requester -/

structure FetchEnv where
  m_block_index : BlockMap
  pindexBestKnownBlock : Uint256
  /-- `m_id` and `m_their_services` of the peer -/
  m_id : Int
  m_their_services : ServiceFlags
  /-- a block that was asked for, and the first peer it was asked from -/
  mapBlocksInFlight : FMap Uint256 Int
  /-- `DEPLOYMENT_SEGWIT` is active at the block -/
  segwitActive : Uint256 → Bool
  /-- the tip of the chain, if one is given -/
  activeChain : Option (Option Uint256)
  /-- there is a place for `nodeStaller` -/
  wantsStaller : Bool
  count : Nat
  nWindowEnd : Int

structure FetchState where
  vBlocks : List Uint256
  pindexLastCommonBlock : Option Uint256
  waitingfor : Int := -1
  nodeStaller : Option Int := none

namespace FetchEnv

def bestHeight (env : FetchEnv) : Nat := env.m_block_index.nHeight env.pindexBestKnownBlock

def nMaxHeight (env : FetchEnv) : Int := min (env.bestHeight : Int) (env.nWindowEnd + 1)

/-- too deep below the best block of a limited peer -/
def beyondLimited (env : FetchEnv) (nHeight : Nat) : Bool :=
  env.m_their_services.isLimitedPeer &&
    decide ((env.bestHeight : Int) - nHeight ≥ NODE_NETWORK_LIMITED_MIN_BLOCKS - 2)

/-- the body of the inner loop; `true` returns from the function -/
def visit (env : FetchEnv) (st : FetchState) (pindex : Uint256) : FetchState × Bool :=
  match env.m_block_index.lookupBlockIndex pindex with
  | none => (st, true)
  | some e =>
    if !e.nStatus.isValid BLOCK_VALID_TREE then (st, true)
    else if !env.m_their_services.NODE_WITNESS && env.segwitActive pindex then (st, true)
    else if e.nStatus.haveData ||
        env.activeChain.any (fun tip => env.m_block_index.chainContains tip pindex) then
      if env.activeChain.isSome && e.haveNumChainTxs then
        ({ st with pindexLastCommonBlock := some pindex }, false)
      else (st, false)
    else
      match env.mapBlocksInFlight.get pindex with
      | some node => (if st.waitingfor = -1 then { st with waitingfor := node } else st, false)
      | none =>
        if (e.nHeight : Int) > env.nWindowEnd then
          (if st.vBlocks.length = 0 ∧ st.waitingfor ≠ env.m_id ∧ env.wantsStaller = true then
            { st with nodeStaller := some st.waitingfor } else st, true)
        else if env.beyondLimited e.nHeight then (st, false)
        else ({ st with vBlocks := st.vBlocks ++ [pindex] },
          decide (st.vBlocks.length + 1 = env.count))

def visitAll (env : FetchEnv) : List Uint256 → FetchState → FetchState × Bool
  | [], st => (st, false)
  | pindex :: vToFetch, st =>
    match env.visit st pindex with
    | (st, true) => (st, true)
    | (st, false) => visitAll env vToFetch st

/-- a block and those before it, `nToFetch` in all, in forward direction -/
def vToFetch (env : FetchEnv) (pindexWalk : Uint256) (nToFetch : Nat) : List Uint256 :=
  ((env.m_block_index.forest.path pindexWalk).take nToFetch).reverse

def nToFetch (env : FetchEnv) (pindexWalk : Uint256) (st : FetchState) : Nat :=
  min (env.nMaxHeight - env.m_block_index.nHeight pindexWalk).toNat
    (max (env.count - st.vBlocks.length) 128)

def fetchRounds (env : FetchEnv) : Nat → Uint256 → FetchState → FetchState
  | 0, _, st => st
  | fuel + 1, pindexWalk, st =>
    if (env.m_block_index.nHeight pindexWalk : Int) < env.nMaxHeight then
      let n := env.nToFetch pindexWalk st
      match env.m_block_index.getAncestor env.pindexBestKnownBlock
          (env.m_block_index.nHeight pindexWalk + n) with
      | none => st
      | some pindexWalk =>
        match env.visitAll (env.vToFetch pindexWalk n) st with
        | (st, true) => st
        | (st, false) => fetchRounds env fuel pindexWalk st
    else st

/-- every round climbs, so there are no more of them than blocks below the best one -/
def findNextBlocks (env : FetchEnv) (pindexWalk : Uint256) (vBlocks : List Uint256)
    (pindexLastCommonBlock : Option Uint256) : FetchState :=
  env.fetchRounds env.bestHeight pindexWalk ⟨vBlocks, pindexLastCommonBlock, -1, none⟩

end FetchEnv

/-! ## the server -/

/-- `ProcessGetBlockData` disconnects the peer that asks for a block below the threshold -/
def belowThreshold (noBan : Bool) (our_services : ServiceFlags) (tipHeight nHeight : Int) : Bool :=
  !noBan && (our_services.NODE_NETWORK_LIMITED && !our_services.NODE_NETWORK &&
    decide (tipHeight - nHeight > NODE_NETWORK_LIMITED_MIN_BLOCKS + 2))

/-! ## rounds -/

namespace FetchEnv

variable {env : FetchEnv}

theorem getAncestor_height {m : BlockMap} {hash a : Uint256} {height : Nat}
    (h : m.getAncestor hash height = some a) : m.nHeight a = height := by
  have := find?_some h
  simpa using this

variable {pindexWalk : Uint256} {st : FetchState} {n : Nat}

theorem nToFetch_pos (h : (env.m_block_index.nHeight pindexWalk : Int) < env.nMaxHeight) :
    0 < env.nToFetch pindexWalk st := by
  unfold nToFetch
  omega

/-- more rounds than there are blocks to climb change nothing -/
theorem fetchRounds_succ {fuel : Nat}
    (h : env.bestHeight ≤ env.m_block_index.nHeight pindexWalk + fuel) :
    env.fetchRounds (fuel + 1) pindexWalk st = env.fetchRounds fuel pindexWalk st := by
  have hmax : env.nMaxHeight ≤ env.bestHeight := min_le_left _ _
  induction fuel generalizing pindexWalk st with
  | zero =>
    unfold fetchRounds
    rw [if_neg (by omega)]
  | succ fuel ih =>
    rw [fetchRounds, fetchRounds]
    by_cases hlt : (env.m_block_index.nHeight pindexWalk : Int) < env.nMaxHeight
    · rw [if_pos hlt, if_pos hlt]
      have hpos := @nToFetch_pos env pindexWalk st hlt
      dsimp only
      cases hanc : env.m_block_index.getAncestor env.pindexBestKnownBlock
          (env.m_block_index.nHeight pindexWalk + env.nToFetch pindexWalk st) with
      | none => rfl
      | some next =>
        have hheight := getAncestor_height hanc
        dsimp only
        split
        · rfl
        · apply ih
          omega
    · rw [if_neg hlt, if_neg hlt]

theorem height_of_mem_take {F : Forest Uint256} (n : Nat) {a k : Uint256}
    (h : a ∈ (F.path k).take n) : F.height k < F.height a + n := by
  induction n generalizing k with
  | zero =>
    cases h
  | succ n ih =>
    cases hp : F.parent k with
    | none =>
      rw [F.path_root hp] at h
      have hak : a = k := by simpa using h
      rw [hak]
      omega
    | some p =>
      rw [F.path_parent hp, take_succ_cons, mem_cons] at h
      have hheight := F.height_parent k p hp
      rcases h with rfl | h
      · omega
      · have := ih h
        omega

/-- what is said of a block that is asked for -/
def Fetchable (env : FetchEnv) (pindex : Uint256) : Prop :=
  0 < env.m_block_index.nHeight pindex ∧
    env.beyondLimited (env.m_block_index.nHeight pindex) = false

/-- the blocks that were added can be asked for -/
def Adds (env : FetchEnv) (st st' : FetchState) : Prop :=
  ∃ added, st'.vBlocks = st.vBlocks ++ added ∧ ∀ b ∈ added, env.Fetchable b

theorem Adds.refl (st : FetchState) : env.Adds st st :=
  ⟨[], (append_nil _).symm, fun b hb => by cases hb⟩

theorem Adds.trans {st' st'' : FetchState} (h : env.Adds st st') (h' : env.Adds st' st'') :
    env.Adds st st'' := by
  obtain ⟨l, hl, hok⟩ := h
  obtain ⟨l', hl', hok'⟩ := h'
  refine ⟨l ++ l', by rw [hl', hl, append_assoc], fun b hb => ?_⟩
  rcases mem_append.mp hb with hb | hb
  · exact hok b hb
  · exact hok' b hb

theorem visit_adds {pindex : Uint256}
    (hpos : 0 < env.m_block_index.nHeight pindex) : env.Adds st (env.visit st pindex).1 := by
  have hsame : ∀ st' : FetchState, st'.vBlocks = st.vBlocks → env.Adds st st' :=
    fun st' h => ⟨[], by rw [h, append_nil], fun b hb => by cases hb⟩
  unfold visit
  cases hlook : env.m_block_index.lookupBlockIndex pindex with
  | none => exact Adds.refl st
  | some e =>
    have hheight : env.m_block_index.nHeight pindex = e.nHeight := BlockMap.nHeight_of_get hlook
    dsimp only
    split
    · exact Adds.refl st
    split
    · exact Adds.refl st
    split
    · split
      · exact hsame _ rfl
      · exact Adds.refl st
    split
    · apply hsame
      split <;> rfl
    split
    · apply hsame
      split <;> rfl
    split
    · exact Adds.refl st
    · rename_i hlimited
      refine ⟨[pindex], rfl, fun b hb => ?_⟩
      rw [mem_singleton.mp hb]
      refine ⟨hpos, ?_⟩
      rw [hheight]
      simpa using hlimited

theorem visitAll_adds (l : List Uint256)
    (hpos : ∀ b ∈ l, 0 < env.m_block_index.nHeight b) : env.Adds st (env.visitAll l st).1 := by
  induction l generalizing st with
  | nil => exact Adds.refl st
  | cons b l ih =>
    have hb := @visit_adds env st b (hpos b mem_cons_self)
    unfold visitAll
    cases hv : env.visit st b with
    | mk st' stop =>
      rw [hv] at hb
      cases stop with
      | true => exact hb
      | false => exact hb.trans (ih fun b' hb' => hpos b' (mem_cons_of_mem _ hb'))

theorem fetchRounds_adds (fuel : Nat) : env.Adds st (env.fetchRounds fuel pindexWalk st) := by
  induction fuel generalizing pindexWalk st with
  | zero => exact Adds.refl st
  | succ fuel ih =>
    unfold fetchRounds
    split
    · dsimp only
      cases hanc : env.m_block_index.getAncestor env.pindexBestKnownBlock
          (env.m_block_index.nHeight pindexWalk + env.nToFetch pindexWalk st) with
      | none => exact Adds.refl st
      | some next =>
        have hheight := getAncestor_height hanc
        have hpos : ∀ b ∈ env.vToFetch next (env.nToFetch pindexWalk st),
            0 < env.m_block_index.nHeight b := by
          intro b hb
          have hlt : env.m_block_index.nHeight next <
              env.m_block_index.nHeight b + env.nToFetch pindexWalk st :=
            height_of_mem_take _ (mem_reverse.mp hb)
          omega
        have hall := @visitAll_adds env st (env.vToFetch next (env.nToFetch pindexWalk st)) hpos
        dsimp only
        cases hv : env.visitAll (env.vToFetch next (env.nToFetch pindexWalk st)) st with
        | mk st' stop =>
          rw [hv] at hall
          cases stop with
          | true => exact hall
          | false => exact hall.trans ih
    · exact Adds.refl st

/-! ## a line of headers -/

def lineId (n : Nat) : Uint256 :=
  ⟨UInt8.ofNat n :: UInt8.ofNat (n / 256) :: UInt8.ofNat (n / 65536) :: List.replicate 29 0, by simp⟩

def lineNumber (h : Uint256) : Nat :=
  ((h.data[0]?).getD 0).toNat + 256 * ((h.data[1]?).getD 0).toNat +
    65536 * ((h.data[2]?).getD 0).toNat

theorem lineNumber_lineId (h : n < 2 ^ 24) : lineNumber (lineId n) = n := by
  show (UInt8.ofNat n).toNat + 256 * (UInt8.ofNat (n / 256)).toNat +
    65536 * (UInt8.ofNat (n / 65536)).toNat = n
  rw [UInt8.toNat_ofNat', UInt8.toNat_ofNat', UInt8.toNat_ofNat']
  omega

def lineEntry (n : Nat) : CBlockIndex where
  toBlockIndexState := BlockIndexState.header
  pprev := if n = 0 then none else some (lineId (n - 1))
  nHeight := n
  nChainWork := 2 * (n + 1)
  address := n

def headersTo (top : Nat) (htop : top < 2 ^ 24) : BlockMap where
  entries :=
    { get := fun h =>
        if h = lineId (lineNumber h) ∧ lineNumber h ≤ top then some (lineEntry (lineNumber h))
        else none
      dom := (Finset.range (top + 1)).image lineId
      mem_dom := by
        intro h
        rw [Finset.mem_image]
        constructor
        · rintro ⟨k, hk, rfl⟩
          have hle := Finset.mem_range.mp hk
          rw [lineNumber_lineId (by omega), if_pos ⟨rfl, by omega⟩]
          rfl
        · intro hs
          split at hs
          · rename_i hh
            exact ⟨lineNumber h, Finset.mem_range.mpr (by omega), hh.1.symm⟩
          · cases hs }
  height_pprev := by
    intro h e p he hp
    dsimp only at he ⊢
    split at he
    · rename_i hh
      cases he
      change (if lineNumber h = 0 then none else some (lineId (lineNumber h - 1))) = some p at hp
      split at hp
      · cases hp
      · cases hp
        refine ⟨lineEntry (lineNumber h - 1), ?_, ?_⟩
        · rw [lineNumber_lineId (by omega), if_pos ⟨rfl, by omega⟩]
        · show lineNumber h = lineNumber h - 1 + 1
          omega
    · cases he

section line
variable (top : Nat) (htop : top < 2 ^ 24)

theorem headersTo_get (h : n ≤ top) :
    (headersTo top htop).entries.get (lineId n) = some (lineEntry n) := by
  show (if _ ∧ _ then _ else _) = _
  rw [lineNumber_lineId (by omega), if_pos ⟨rfl, h⟩]

theorem headersTo_nHeight (h : n ≤ top) : (headersTo top htop).nHeight (lineId n) = n :=
  BlockMap.nHeight_of_get (headersTo_get top htop h)

theorem headersTo_parent (h : n + 1 ≤ top) :
    (headersTo top htop).forest.parent (lineId (n + 1)) = some (lineId n) := by
  show (headersTo top htop).pprev _ = _
  rw [BlockMap.pprev, headersTo_get top htop h]
  rfl

theorem mem_path_headersTo {k : Nat} (h : k ≤ top) (hn : n ≤ k) :
    lineId n ∈ (headersTo top htop).forest.path (lineId k) := by
  induction k with
  | zero =>
    rw [Nat.le_zero.mp hn]
    exact self_mem_path _ _
  | succ k ih =>
    by_cases heq : n = k + 1
    · rw [heq]
      exact self_mem_path _ _
    · exact mem_path_of_parent _ (headersTo_parent top htop h) (ih (by omega) (by omega))

theorem vToFetch_headersTo (h : n + 1 ≤ top) :
    ∃ rest, (((headersTo top htop).forest.path (lineId (n + 1))).take (n + 1)).reverse =
      lineId 1 :: rest := by
  induction n with
  | zero =>
    refine ⟨[], ?_⟩
    rw [path_parent _ (headersTo_parent top htop h)]
    rfl
  | succ n ih =>
    obtain ⟨rest, hrest⟩ := ih (by omega)
    refine ⟨rest ++ [lineId (n + 2)], ?_⟩
    rw [path_parent _ (headersTo_parent top htop h), take_succ_cons, reverse_cons, hrest]
    rfl

end line

section
variable (top : Nat) (htop : top < 2 ^ 24)
include htop

/-- a node that has only headers asks a limited peer for one block -/
def askHeaders : FetchEnv where
  m_block_index := headersTo top htop
  pindexBestKnownBlock := lineId top
  m_id := 0
  m_their_services := ⟨false, true, true⟩
  mapBlocksInFlight := FMap.empty
  segwitActive := fun _ => true
  activeChain := some (some (lineId 0))
  wantsStaller := true
  count := 1
  nWindowEnd := BLOCK_DOWNLOAD_WINDOW

theorem bestHeight_askHeaders :
    (askHeaders top htop).bestHeight = top := headersTo_nHeight top htop le_rfl

theorem visit_askHeaders (hpos : 0 < top)
    (hlim : (top : Int) - 1 < NODE_NETWORK_LIMITED_MIN_BLOCKS - 2) :
    (askHeaders top htop).visit ⟨[], none, -1, none⟩ (lineId 1) =
      (⟨[lineId 1], none, -1, none⟩, true) := by
  have hbeyond : (askHeaders top htop).beyondLimited 1 = false := by
    unfold beyondLimited
    rw [bestHeight_askHeaders top htop, decide_eq_false (by push_cast; omega), Bool.and_false]
  unfold visit
  rw [show (askHeaders top htop).m_block_index.lookupBlockIndex (lineId 1) = some (lineEntry 1) from
    headersTo_get top htop hpos]
  dsimp only
  have hwindow : ¬ ((lineEntry 1).nHeight : Int) > (askHeaders top htop).nWindowEnd := by
    show ¬ (1 : Int) > 1024
    decide
  rw [show (lineEntry 1).nHeight = 1 from rfl, hbeyond]
  rfl

theorem findNextBlocks_askHeaders (hpos : 0 < top)
    (hlim : (top : Int) - 1 < NODE_NETWORK_LIMITED_MIN_BLOCKS - 2) :
    ((askHeaders top htop).findNextBlocks (lineId 0) [] none).vBlocks = [lineId 1] := by
  let env := askHeaders top htop
  let st : FetchState := ⟨[], none, -1, none⟩
  have h0 : env.m_block_index.nHeight (lineId 0) = 0 := headersTo_nHeight top htop (Nat.zero_le _)
  have hmax : env.nMaxHeight = min (top : Int) 1025 := by
    unfold nMaxHeight
    rw [bestHeight_askHeaders top htop]
    rfl
  have hlt : (env.m_block_index.nHeight (lineId 0) : Int) < env.nMaxHeight := by
    omega
  have hle : env.nToFetch (lineId 0) st ≤ top := by
    unfold nToFetch
    omega
  obtain ⟨n, hn⟩ := Nat.exists_eq_succ_of_ne_zero
    (Nat.pos_iff_ne_zero.mp (@nToFetch_pos env (lineId 0) st hlt))
  rw [hn] at hle
  obtain ⟨rest, hrest⟩ := vToFetch_headersTo top htop hle
  have hanc : env.m_block_index.getAncestor (lineId top) (n + 1) = some (lineId (n + 1)) := by
    have := BlockMap.getAncestor_of_mem (mem_path_headersTo top htop le_rfl hle)
    rwa [headersTo_nHeight top htop hle] at this
  obtain ⟨fuel, hfuel⟩ := Nat.exists_eq_succ_of_ne_zero (Nat.pos_iff_ne_zero.mp hpos)
  have hbest : env.bestHeight = fuel + 1 := (bestHeight_askHeaders top htop).trans hfuel
  show (env.fetchRounds env.bestHeight (lineId 0) st).vBlocks = _
  rw [hbest, fetchRounds, if_pos hlt]
  dsimp only
  rw [hn, h0, Nat.zero_add, show env.pindexBestKnownBlock = lineId top from rfl, hanc]
  dsimp only
  rw [show env.vToFetch (lineId (n + 1)) (n + 1) = lineId 1 :: rest from hrest, visitAll,
    visit_askHeaders top htop hpos hlim]

end

/-! ## what the peer keeps -/

/-- the blocks that are asked for from a limited peer are above what it may delete, and it does not
refuse them -/
def Safe (network : ChainType) (env : FetchEnv) (pindexWalk : Uint256) (vBlocks : List Uint256)
    (pindexLastCommonBlock : Option Uint256) : Prop :=
  env.m_their_services.isLimitedPeer = true →
    ∀ b ∈ (env.findNextBlocks pindexWalk vBlocks pindexLastCommonBlock).vBlocks.drop vBlocks.length,
      (∀ peer : PruneChain, peer.network = network → peer.height = env.bestHeight →
        ∀ last, (peer.getPruneRange last).2 < env.m_block_index.nHeight b) ∧
      ∀ noBan, belowThreshold noBan env.m_their_services env.bestHeight
        (env.m_block_index.nHeight b) = false

theorem pruneRange_lt {peer : PruneChain} {height : Nat} (hpos : 0 < height)
    (h : peer.height - peer.depth < height) (last : Int) : (peer.getPruneRange last).2 < height := by
  unfold PruneChain.getPruneRange
  split
  · show (0 : Int) < height
    omega
  · show min last (max 0 (peer.height - peer.depth)) < height
    omega

theorem safe_of_depth {network : ChainType}
    (h : NODE_NETWORK_LIMITED_MIN_BLOCKS - 2 ≤ network.consensus.MandatoryPruneDepth)
    (env : FetchEnv) (pindexWalk : Uint256) (vBlocks : List Uint256)
    (pindexLastCommonBlock : Option Uint256) :
    Safe network env pindexWalk vBlocks pindexLastCommonBlock := by
  intro hlimited b hb
  obtain ⟨added, hadded, hok⟩ : env.Adds ⟨vBlocks, pindexLastCommonBlock, -1, none⟩
      (env.findNextBlocks pindexWalk vBlocks pindexLastCommonBlock) := fetchRounds_adds _
  have hmem : b ∈ added := by
    rw [hadded] at hb
    rwa [drop_left] at hb
  obtain ⟨hpos, hdeep⟩ := hok b hmem
  have hdepth : (env.bestHeight : Int) - env.m_block_index.nHeight b <
      NODE_NETWORK_LIMITED_MIN_BLOCKS - 2 := by
    unfold beyondLimited at hdeep
    rw [hlimited, Bool.true_and, decide_eq_false_iff_not] at hdeep
    omega
  refine ⟨fun peer hnet hheight last => pruneRange_lt hpos ?_ last, fun noBan => ?_⟩
  · unfold PruneChain.depth
    rw [hnet]
    omega
  · unfold belowThreshold
    rw [decide_eq_false (by omega), Bool.and_false, Bool.and_false]

def headersPeer (network : ChainType) (height : Nat) (h : height < 2 ^ 24) : PruneChain where
  height := height
  snapshotBase := none
  m_assumeutxo := .VALIDATED
  network := network
  historical := false
  height_ge := by omega
  height_le := by
    unfold INT_MAX
    omega
  base_le := by
    intro _ b hb
    cases hb

theorem depth_of_safe {network : ChainType} (hsafe : ∀ env pindexWalk vBlocks pindexLastCommonBlock,
      Safe network env pindexWalk vBlocks pindexLastCommonBlock) :
    NODE_NETWORK_LIMITED_MIN_BLOCKS - 2 ≤ network.consensus.MandatoryPruneDepth := by
  by_contra hlow
  -- the headers reach one block above the depth, so the first block may be gone
  have hlt : network.consensus.MandatoryPruneDepth + 1 < 2 ^ 24 := by
    unfold NODE_NETWORK_LIMITED_MIN_BLOCKS at hlow
    omega
  have hlim : ((network.consensus.MandatoryPruneDepth + 1 : Nat) : Int) - 1 <
      NODE_NETWORK_LIMITED_MIN_BLOCKS - 2 := by
    omega
  have hfetch := findNextBlocks_askHeaders _ hlt (Nat.succ_pos _) hlim
  have hrange := (hsafe (askHeaders _ hlt) (lineId 0) [] none rfl (lineId 1) (by
    rw [hfetch]
    exact mem_singleton_self _)).1 (headersPeer network _ hlt) rfl
    (congrArg Nat.cast (bestHeight_askHeaders _ hlt).symm) 1
  have hone : (askHeaders (network.consensus.MandatoryPruneDepth + 1) hlt).m_block_index.nHeight
      (lineId 1) = 1 := headersTo_nHeight _ hlt (Nat.succ_pos _)
  unfold PruneChain.getPruneRange headersPeer PruneChain.depth at hrange
  dsimp only at hrange
  rw [if_neg (by push_cast; omega)] at hrange
  omega

/-- **A limited peer is only asked for blocks that it keeps, exactly on the networks that prune at
least `NODE_NETWORK_LIMITED_MIN_BLOCKS - 2` blocks below the tip.** -/
theorem findNextBlocks_safe_iff (network : ChainType) :
    (∀ env pindexWalk vBlocks pindexLastCommonBlock,
      Safe network env pindexWalk vBlocks pindexLastCommonBlock) ↔
    NODE_NETWORK_LIMITED_MIN_BLOCKS - 2 ≤ network.consensus.MandatoryPruneDepth :=
  ⟨depth_of_safe, fun h => safe_of_depth h⟩

/-- On the test network a node with 301 headers asks for the first block, which a peer at height 301
may have deleted. -/
theorem testnet_asks_for_pruned :
    ((askHeaders 301 (by decide)).findNextBlocks (lineId 0) [] none).vBlocks = [lineId 1] ∧
    (askHeaders 301 (by decide)).m_block_index.nHeight (lineId 1) = 1 ∧
    (headersPeer .TESTNET 301 (by decide)).getPruneRange 301 = (0, 1) ∧
    ¬ Safe .TESTNET (askHeaders 301 (by decide)) (lineId 0) [] none := by
  have hfetch := findNextBlocks_askHeaders 301 (by decide) (by decide) (by decide)
  have hone : (askHeaders 301 (by decide)).m_block_index.nHeight (lineId 1) = 1 :=
    headersTo_nHeight 301 (by decide) (by decide)
  have hrange : (headersPeer .TESTNET 301 (by decide)).getPruneRange 301 = (0, 1) := by decide
  refine ⟨hfetch, hone, hrange, fun hsafe => ?_⟩
  have hlt := (hsafe rfl (lineId 1) (by
    rw [hfetch]
    exact mem_singleton_self _)).1 (headersPeer .TESTNET 301 (by decide)) rfl
    (congrArg Nat.cast (bestHeight_askHeaders 301 (by decide)).symm) 301
  rw [hrange] at hlt
  omega

end FetchEnv

end ElektronNet
