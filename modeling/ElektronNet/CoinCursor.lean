import ElektronNet.Lib.VarInt
import ElektronNet.CoinStats

/-!
# The cursor of the coins database

`CCoinsViewDBCursor` of `txdb.cpp` and the walk of `ComputeUTXOStats` over it.  A record of the
database has the key `DB_COIN`, the transaction hash, and the index as a variable-length number, and
the records come in the order of the bytes of their keys: those of a transaction stand together, but
not in the order of their indices.

* `cursor m`             the coins in the order of the database
* `cursor_hash_le`       the transactions come in the order of their hashes
* `walkUTXOs`            the coins in the order in which the hash object is given them
* `walkUTXOs_cursor`     that is the order of the outpoints, so the hash depends on the set only
-/

namespace ElektronNet

open List

/-! ## the order of the database -/

def DB_COIN : UInt8 := 67

/-- the bytes of a key, compared one by one as unsigned numbers -/
def coinKey (o : COutPoint) : List Nat :=
  (DB_COIN :: (o.hash.data ++ VarInt.write o.n)).map UInt8.toNat

def keyLe (a b : CoinEntry) : Prop := coinKey a.1 ≤ coinKey b.1

instance : DecidableRel keyLe := fun a b => inferInstanceAs (Decidable (coinKey a.1 ≤ coinKey b.1))

instance : Std.Total keyLe := ⟨fun a b => le_total (coinKey a.1) (coinKey b.1)⟩

instance : IsTrans CoinEntry keyLe := ⟨fun _ _ _ hab hbc => le_trans hab hbc⟩

def cursor (m : Utxos) : List CoinEntry := m.toList.insertionSort keyLe

theorem cursor_perm (m : Utxos) : (cursor m).Perm m.toList :=
  perm_insertionSort keyLe m.toList

theorem append_lt_append {a b : List Nat} (s t : List Nat) (hlen : a.length = b.length) (h : a < b) :
    a ++ s < b ++ t := by
  induction a generalizing b with
  | nil =>
    obtain rfl := length_eq_zero_iff.mp hlen.symm
    exact absurd h (lt_irrefl _)
  | cons x a ih =>
    obtain ⟨y, b, rfl⟩ := exists_cons_of_length_eq_add_one hlen.symm
    rcases cons_lt_cons_iff.mp h with hlt | ⟨rfl, hlt⟩
    · exact cons_lt_cons_iff.mpr (.inl hlt)
    · exact cons_lt_cons_iff.mpr (.inr ⟨rfl, ih (by simpa using hlen) hlt⟩)

/-- the hashes have one length, so the index does not matter between two transactions -/
theorem hash_le_of_keyLe {a b : CoinEntry} (h : keyLe a b) : a.1.hash ≤ b.1.hash := by
  by_contra hlt
  have hkey : b.1.hash.key < a.1.hash.key := not_le.mp hlt
  have hlen : b.1.hash.key.length = a.1.hash.key.length := by
    rw [Uint256.key, Uint256.key, length_map, length_map, b.1.hash.size_eq,
      a.1.hash.size_eq]
  have happend := append_lt_append ((VarInt.write b.1.n).map UInt8.toNat)
    ((VarInt.write a.1.n).map UInt8.toNat) hlen hkey
  refine absurd h (not_le.mpr ?_)
  rw [coinKey, coinKey, map_cons, map_cons, map_append, map_append]
  exact cons_lt_cons_iff.mpr (.inr ⟨rfl, happend⟩)

theorem cursor_hash_le (m : Utxos) : (cursor m).Pairwise fun a b => a.1.hash ≤ b.1.hash :=
  (pairwise_insertionSort keyLe m.toList).imp hash_le_of_keyLe

theorem cursor_nodup (m : Utxos) : ((cursor m).map Prod.fst).Nodup := by
  refine ((cursor_perm m).map Prod.fst).nodup_iff.mpr ?_
  rw [List.Nodup, pairwise_map]
  exact (FMap.toList_pairwise m).imp fun {a b} hlt => ne_of_lt hlt

/-! ## the walk of ComputeUTXOStats -/

/-- the variables of the walk; `hash_obj` is the list of the coins it was given -/
structure StatsWalk where
  prevkey : Uint256
  outputs : FMap Nat Coin
  hash_obj : List CoinEntry
  coins_count : Nat

def outputsOf (hash : Uint256) (outputs : FMap Nat Coin) : List CoinEntry :=
  outputs.toList.map fun e => (⟨hash, e.1⟩, e.2)

def StatsWalk.applyHash (st : StatsWalk) : List CoinEntry :=
  st.hash_obj ++ outputsOf st.prevkey st.outputs

def applyUTXOCoinsToStats (st : StatsWalk) (e : CoinEntry) : StatsWalk :=
  let st := if st.outputs.dom ≠ ∅ ∧ e.1.hash ≠ st.prevkey then
      { st with hash_obj := st.applyHash, outputs := FMap.empty }
    else st
  ⟨e.1.hash, st.outputs.insert e.1.n e.2, st.hash_obj, st.coins_count + 1⟩

def StatsWalk.begin : StatsWalk := ⟨Uint256.zero, FMap.empty, [], 0⟩

def walkUTXOs (coins : List CoinEntry) : List CoinEntry :=
  let st := coins.foldl applyUTXOCoinsToStats StatsWalk.begin
  if st.outputs.dom ≠ ∅ then st.applyHash else st.hash_obj

/-- the walk has come over the coins of `l` -/
structure Walked (st : StatsWalk) (l : List CoinEntry) : Prop where
  perm : st.applyHash.Perm l
  sorted : st.applyHash.Pairwise fun a b => a.1 < b.1
  below : ∀ x ∈ st.hash_obj, x.1.hash < st.prevkey
  le : ∀ x ∈ l, x.1.hash ≤ st.prevkey
  collecting : l ≠ [] → st.outputs.dom ≠ ∅
  count : st.coins_count = l.length

variable {outputs : FMap Nat Coin}

theorem mem_outputsOf {hash : Uint256} {x : CoinEntry} :
    x ∈ outputsOf hash outputs ↔ x.1.hash = hash ∧ outputs.get x.1.n = some x.2 := by
  rw [outputsOf, mem_map]
  constructor
  · rintro ⟨⟨n, coin⟩, hmem, rfl⟩
    exact ⟨rfl, (FMap.mem_toList _ _ _).mp hmem⟩
  · rintro ⟨rfl, hget⟩
    exact ⟨(x.1.n, x.2), (FMap.mem_toList _ _ _).mpr hget, rfl⟩

theorem lt_of_hash_lt {a b : COutPoint} (h : a.hash < b.hash) : a < b :=
  Prod.Lex.toLex_lt_toLex.mpr (.inl h)

theorem lt_of_index_lt (hash : Uint256) {i j : Nat} (h : i < j) :
    (⟨hash, i⟩ : COutPoint) < ⟨hash, j⟩ := Prod.Lex.toLex_lt_toLex.mpr (.inr ⟨rfl, h⟩)

theorem outputsOf_sorted (hash : Uint256) (outputs : FMap Nat Coin) :
    (outputsOf hash outputs).Pairwise fun a b => a.1 < b.1 := by
  rw [outputsOf, pairwise_map]
  refine (FMap.toList_pairwise outputs).imp fun {a b} hlt => ?_
  exact lt_of_index_lt hash hlt

theorem insert_dom_ne (n : Nat) (coin : Coin) : (outputs.insert n coin).dom ≠ ∅ := by
  rw [FMap.insert_dom]
  exact Finset.insert_ne_empty _ _

theorem outputsOf_insert {hash : Uint256} {n : Nat} (h : outputs.get n = none) (coin : Coin) :
    (outputsOf hash (outputs.insert n coin)).Perm ((⟨hash, n⟩, coin) :: outputsOf hash outputs) :=
  (FMap.toList_insert h coin).map _

theorem outputsOf_empty (hash : Uint256) (h : outputs.dom = ∅) : outputsOf hash outputs = [] := by
  have hnone : ∀ k, outputs.get k = none := fun k => by
    rw [FMap.get_eq_none_iff, h]
    exact Finset.notMem_empty k
  rw [outputsOf, FMap.toList_eq_nil hnone]
  rfl

section
variable {st : StatsWalk} {l : List CoinEntry} {e : CoinEntry}

theorem Walked.collect (h : Walked st l) (hnew : ∀ x ∈ l, x.1 ≠ e.1)
    (hsame : outputsOf st.prevkey st.outputs = outputsOf e.1.hash st.outputs)
    (hbelow : ∀ x ∈ st.hash_obj, x.1.hash < e.1.hash) (hle : ∀ x ∈ l, x.1.hash ≤ e.1.hash) :
    Walked ⟨e.1.hash, st.outputs.insert e.1.n e.2, st.hash_obj, st.coins_count + 1⟩ (l ++ [e]) := by
  have hall : st.applyHash = st.hash_obj ++ outputsOf e.1.hash st.outputs := by
    rw [StatsWalk.applyHash, hsame]
  have hfree : st.outputs.get e.1.n = none := by
    cases hg : st.outputs.get e.1.n with
    | none => rfl
    | some coin =>
      have hmem : ((e.1, coin) : CoinEntry) ∈ l := by
        rw [← h.perm.mem_iff, hall]
        exact mem_append_right _ (mem_outputsOf.mpr ⟨rfl, hg⟩)
      exact absurd rfl (hnew (e.1, coin) hmem)
  refine ⟨?_, ?_, hbelow, ?_, fun _ => insert_dom_ne _ _, by rw [h.count]; simp⟩
  · calc st.hash_obj ++ outputsOf e.1.hash (st.outputs.insert e.1.n e.2)
        |>.Perm (st.hash_obj ++ e :: outputsOf e.1.hash st.outputs) :=
          (outputsOf_insert hfree e.2).append_left _
      _ |>.Perm (e :: st.applyHash) := by rw [hall]; exact perm_middle
      _ |>.Perm (e :: l) := h.perm.cons e
      _ |>.Perm (l ++ [e]) := (perm_append_singleton e l).symm
  · refine pairwise_append.mpr ⟨(pairwise_append.mp h.sorted).1, outputsOf_sorted _ _, ?_⟩
    intro a ha b hb
    refine lt_of_hash_lt ?_
    rw [(mem_outputsOf.mp hb).1]
    exact hbelow a ha
  · intro x hx
    rcases mem_append.mp hx with hx | hx
    · exact hle x hx
    · obtain rfl := mem_singleton.mp hx
      exact le_rfl

theorem Walked.turn (h : Walked st l) (hlt : st.prevkey < e.1.hash) :
    Walked ⟨e.1.hash, FMap.empty.insert e.1.n e.2, st.applyHash, st.coins_count + 1⟩ (l ++ [e]) := by
  have hone : outputsOf e.1.hash (FMap.empty.insert e.1.n e.2) = [e] :=
    perm_singleton.mp ((outputsOf_insert (FMap.empty_get _) e.2).trans (by
      rw [outputsOf_empty _ FMap.empty_dom]))
  have hbelow : ∀ x ∈ st.applyHash, x.1.hash < e.1.hash := fun x hx =>
    lt_of_le_of_lt (h.le x (h.perm.mem_iff.mp hx)) hlt
  refine ⟨?_, ?_, hbelow, ?_, fun _ => insert_dom_ne _ _, by rw [h.count]; simp⟩
  · show (st.applyHash ++ outputsOf _ _).Perm _
    rw [hone]
    exact h.perm.append_right _
  · refine pairwise_append.mpr ⟨h.sorted, outputsOf_sorted _ _, fun a ha b hb => ?_⟩
    refine lt_of_hash_lt ?_
    rw [(mem_outputsOf.mp hb).1]
    exact hbelow a ha
  · intro x hx
    rcases mem_append.mp hx with hx | hx
    · exact (h.le x hx).trans hlt.le
    · obtain rfl := mem_singleton.mp hx
      exact le_rfl

theorem Walked.step (h : Walked st l) (hle : ∀ x ∈ l, x.1.hash ≤ e.1.hash)
    (hnew : ∀ x ∈ l, x.1 ≠ e.1) : Walked (applyUTXOCoinsToStats st e) (l ++ [e]) := by
  by_cases hdom : st.outputs.dom = ∅
  · -- nothing was collected, so nothing was walked over
    have hnil : l = [] := by
      by_contra hl
      exact h.collecting hl hdom
    have hhashed : st.hash_obj = [] := by
      have hperm := h.perm
      rw [hnil, perm_nil] at hperm
      exact (append_eq_nil_iff.mp hperm).1
    rw [applyUTXOCoinsToStats, if_neg fun hc => hc.1 hdom]
    refine h.collect hnew ?_ ?_ hle
    · rw [outputsOf_empty _ hdom, outputsOf_empty _ hdom]
    · rw [hhashed]
      simp
  · by_cases hhash : e.1.hash = st.prevkey
    · rw [applyUTXOCoinsToStats, if_neg fun hc => hc.2 hhash]
      exact h.collect hnew (by rw [hhash]) (by rw [hhash]; exact h.below) hle
    · rw [applyUTXOCoinsToStats, if_pos ⟨hdom, hhash⟩]
      refine h.turn (lt_of_le_of_ne ?_ (Ne.symm hhash))
      -- an output that was collected has the hash of the collected transaction
      obtain ⟨n, hn⟩ := Finset.nonempty_iff_ne_empty.mpr hdom
      obtain ⟨coin, hcoin⟩ := FMap.exists_get_of_mem hn
      have hmem : ((⟨st.prevkey, n⟩, coin) : CoinEntry) ∈ l :=
        h.perm.mem_iff.mp (mem_append_right _ (mem_outputsOf.mpr ⟨rfl, hcoin⟩))
      exact hle _ hmem

end

theorem walked_begin : Walked StatsWalk.begin [] := by
  have hnone : StatsWalk.begin.applyHash = [] := outputsOf_empty _ FMap.empty_dom
  refine ⟨by rw [hnone], by rw [hnone]; exact List.Pairwise.nil, ?_, ?_, fun hl => absurd rfl hl, rfl⟩
  · intro x hx
    cases hx
  · intro x hx
    cases hx

theorem Walked.foldl {st : StatsWalk} {l rest : List CoinEntry} (h : Walked st l)
    (hle : (l ++ rest).Pairwise fun a b => a.1.hash ≤ b.1.hash)
    (hnew : ((l ++ rest).map Prod.fst).Nodup) :
    Walked (rest.foldl applyUTXOCoinsToStats st) (l ++ rest) := by
  induction rest generalizing st l with
  | nil => rwa [append_nil]
  | cons e rest ih =>
    have hstep : Walked (applyUTXOCoinsToStats st e) (l ++ [e]) := by
      refine h.step (fun x hx => ?_) fun x hx => ?_
      · exact (pairwise_append.mp hle).2.2 x hx e mem_cons_self
      · rw [List.Nodup, pairwise_map] at hnew
        exact (pairwise_append.mp hnew).2.2 x hx e mem_cons_self
    rw [append_cons] at hle hnew ⊢
    exact ih hstep hle hnew

theorem walkUTXOs_cursor (m : Utxos) : walkUTXOs (cursor m) = m.toList := by
  have hwalked : Walked ((cursor m).foldl applyUTXOCoinsToStats StatsWalk.begin) (cursor m) :=
    walked_begin.foldl (cursor_hash_le m) (cursor_nodup m)
  have hall : walkUTXOs (cursor m) =
      ((cursor m).foldl applyUTXOCoinsToStats StatsWalk.begin).applyHash := by
    rw [walkUTXOs]
    split
    · rfl
    · rename_i hdom
      rw [StatsWalk.applyHash, outputsOf_empty _ (not_not.mp hdom), append_nil]
  rw [hall]
  exact FMap.eq_toList (hwalked.perm.trans (cursor_perm m)) hwalked.sorted

section
variable {G : Type} [CommGroup G] (M : MuHash G)

/-- `ComputeUTXOStats` over a database, coin by coin -/
def computeUTXOStatsWalk (hash_type : CoinStatsHashType) (d : CCoinsViewDB)
    (known : Uint256 → Bool) : Option CCoinsStats :=
  if known d.bestBlock then
    let coins := walkUTXOs (cursor d.coins)
    some ⟨match hash_type with
      | .HASH_SERIALIZED => M.hashWriter coins
      | .MUHASH => (coins.foldl (fun s e => s.addCoin M e.1 e.2) UTXOMuHashState.empty).getHash M,
      UInt64.ofNat (cursor d.coins).length⟩
  else none

/-- **the walk over the cursor gives what `computeUTXOStats` says of the set** -/
theorem computeUTXOStatsWalk_eq (hash_type : CoinStatsHashType) (d : CCoinsViewDB)
    (known : Uint256 → Bool) :
    computeUTXOStatsWalk M hash_type d known = computeUTXOStats M hash_type (.db d) known := by
  rw [computeUTXOStatsWalk, walkUTXOs_cursor, (cursor_perm d.coins).length_eq]
  cases hash_type <;> rfl

end

end ElektronNet
