import ElektronNet.FailedDisconnect

/-!
# Where a disconnection stops

`DisconnectBlock` goes through the transactions of a block from the last on.  If the block was connected, the
coins that it has taken out and put back when it stops are known beforehand:

* `Unwinding.Past`        the outputs of the transactions that it has gone through are taken, and the
                          inputs of their records are back
* `HeightKnown`           a record without a height needs another output of its transaction
* `Stuck`                 a record that does not let a single input through: another number of coins,
                          or a last coin whose height nobody knows
* `StopsClosed`           at the place where the loop stops nothing is left behind

so a disconnection that fails leaves the accumulator alone iff it stops at such a place
(`disconnectTip_failed_iff`).
-/

namespace ElektronNet

open List

/-! ## the coins on the way -/

/-- `o` is a spendable output of `tx` -/
def Creates (H : Hashes) (tx : CTransaction) (o : COutPoint) : Prop :=
  o.hash = H.txid tx ∧ ∃ out, tx.vout[o.n]? = some out ∧ isUnspendable out.scriptPubKey = false

def Coin.Spendable (coin : Coin) : Prop := isUnspendable coin.out.scriptPubKey = false

theorem putCoin_get_iff {m : Utxos} {p o : COutPoint} {c d : Coin} (hnone : m.get p = none) :
    (putCoin m p c).get o = some d ↔ m.get o = some d ∨ (o, d) = (p, c) ∧ d.Spendable := by
  rw [putCoin, Prod.mk.injEq]
  cases hc : isUnspendable c.out.scriptPubKey with
  | true =>
    refine ⟨.inl, ?_⟩
    rintro (hd | ⟨⟨-, rfl⟩, hd⟩)
    · exact hd
    · exact absurd (hc.symm.trans hd) (by decide)
  | false =>
    rw [if_neg Bool.false_ne_true, FMap.insert_get]
    split
    · rename_i ho
      subst ho
      rw [hnone]
      constructor
      · intro hd
        obtain rfl := Option.some.inj hd
        exact .inr ⟨⟨rfl, rfl⟩, hc⟩
      · rintro (hd | ⟨⟨-, rfl⟩, -⟩)
        · cases hd
        · rfl
    · rename_i ho
      exact ⟨.inl, fun hd => hd.resolve_right fun hc => ho hc.1.1⟩

/-- the outputs `outs` were taken out of `tip` and the coins `puts` put back -/
structure Unwinding.Past (tip : Utxos) (outs : COutPoint → Prop)
    (puts : List CoinEntry) (u : Unwinding) : Prop where
  shown : ∀ o c, u.utxos.get o = some c ↔ ¬ outs o ∧ (tip.get o = some c ∨ (o, c) ∈ puts ∧ c.Spendable)
  taken : ∀ o c, (o, c) ∈ u.taken ↔ outs o ∧ (tip.get o = some c ∨ (o, c) ∈ puts ∧ c.Spendable)
  once : u.taken.Nodup
  restored : u.restored = puts.map fun e =>
    (e.1, if isUnspendable e.2.out.scriptPubKey then Coin.empty else e.2)
  keys : (puts.map Prod.fst).Nodup
  absent : ∀ e ∈ puts, tip.get e.1 = none

section
variable {tip : Utxos} {outs outs' : COutPoint → Prop} {puts : List CoinEntry}
  {u : Unwinding}

theorem past_begin (tip : Utxos) : (Unwinding.begin tip).Past tip (fun _ => False) [] where
  shown := fun o c => by simp [Unwinding.begin]
  taken := fun o c => by simp [Unwinding.begin]
  once := nodup_nil
  restored := rfl
  keys := nodup_nil
  absent := fun e he => absurd he not_mem_nil

namespace Unwinding.Past

variable (h : u.Past tip outs puts)
include h

theorem congr (hiff : ∀ o, outs o ↔ outs' o) : u.Past tip outs' puts := by
  obtain rfl : outs = outs' := funext fun o => propext (hiff o)
  exact h

theorem take {o : COutPoint} (hnew : ¬ outs o) : (u.take tip o).Past tip (fun x => outs x ∨ x = o) puts := by
  unfold Unwinding.take
  cases hget : u.utxos.get o with
  | some coin =>
    have hcoin := (h.shown o coin).mp hget
    refine ⟨fun x c => ?_, fun x c => ?_, ?_, h.restored, h.keys, h.absent⟩
    · show (u.utxos.erase o).get x = some c ↔ _
      rw [FMap.erase_get]
      split
      · rename_i hx
        simp [hx]
      · rename_i hx
        rw [h.shown, not_or, and_iff_left hx]
    · rw [mem_append, mem_singleton, h.taken, or_and_right, Prod.mk.injEq]
      refine or_congr_right ⟨?_, ?_⟩
      · rintro ⟨rfl, rfl⟩
        exact ⟨rfl, hcoin.2⟩
      · rintro ⟨rfl, hc⟩
        exact ⟨rfl, Option.some.inj (((h.shown x c).mpr ⟨hnew, hc⟩).symm.trans hget)⟩
    · refine nodup_append.mpr ⟨h.once, nodup_singleton _, fun e he e' he' heq => hnew ?_⟩
      rw [heq, mem_singleton.mp he'] at he
      exact ((h.taken o coin).mp he).1
  | none =>
    have hno : ∀ c, ¬ (tip.get o = some c ∨ (o, c) ∈ puts ∧ c.Spendable) := fun c hc => by
      have := (h.shown o c).mpr ⟨hnew, hc⟩
      rw [hget] at this
      cases this
    have hnone : ¬ (tip.get o).isSome = true := fun hs => by
      obtain ⟨c, hc⟩ := Option.isSome_iff_exists.mp hs
      exact hno c (.inl hc)
    show Unwinding.Past tip _ puts (if (tip.get o).isSome = true then _ else u)
    rw [if_neg hnone]
    refine ⟨fun x c => ?_, fun x c => ?_, h.once, h.restored, h.keys, h.absent⟩
    · rw [h.shown, not_or, and_assoc]
      refine and_congr_right fun _ => ⟨fun hc => ⟨?_, hc⟩, And.right⟩
      rintro rfl
      exact hno c hc
    · rw [h.taken, or_and_right]
      refine ⟨.inl, ?_⟩
      rintro (hc | ⟨rfl, hc⟩)
      · exact hc
      · exact absurd hc (hno c)

theorem takeOutputs {txid : Uint256} {k : Nat} (vout : List CTxOut) (hnew : ∀ n, k ≤ n → ¬ outs ⟨txid, n⟩) :
    (Unwinding.takeOutputs tip txid k vout u).Past tip (fun x => outs x ∨ ∃ j out, x = ⟨txid, k + j⟩ ∧
      vout[j]? = some out ∧ isUnspendable out.scriptPubKey = false) puts := by
  induction vout generalizing k u outs with
  | nil => exact h.congr fun o => by simp
  | cons out vout ih =>
    rw [Unwinding.takeOutputs]
    have hsplit : ∀ x, (∃ j out', x = (⟨txid, k + j⟩ : COutPoint) ∧ (out :: vout)[j]? = some out' ∧
        isUnspendable out'.scriptPubKey = false) ↔
        x = ⟨txid, k⟩ ∧ isUnspendable out.scriptPubKey = false ∨
          ∃ j out', x = ⟨txid, k + 1 + j⟩ ∧ vout[j]? = some out' ∧
            isUnspendable out'.scriptPubKey = false := by
      intro x
      rw [← Nat.or_exists_add_one]
      simp only [Nat.add_zero, getElem?_cons_zero, Option.some.injEq, getElem?_cons_succ,
        Nat.add_right_comm k 1, Nat.add_assoc k]
      simp
    cases hout : isUnspendable out.scriptPubKey with
    | true =>
      refine (ih h fun n hn => hnew n (by omega)).congr fun x => ?_
      rw [hsplit, hout]
      simp
    | false =>
      refine (ih (h.take (hnew k le_rfl)) fun n hn hc => ?_).congr fun x => ?_
      · rcases hc with hc | hc
        · exact hnew n (by omega) hc
        · injection hc with _ hc
          omega
      · rw [hsplit, hout, or_assoc, and_iff_left rfl]

theorem put {p : COutPoint} (hnew : p ∉ puts.map Prod.fst) (hout : ¬ outs p) (habsent : tip.get p = none)
    (c : Coin) : (u.put p c).Past tip outs (puts ++ [(p, c)]) := by
  have hno : ∀ d, ¬ (tip.get p = some d ∨ (p, d) ∈ puts ∧ d.Spendable) := by
    rintro d (hd | ⟨hd, -⟩)
    · rw [habsent] at hd
      cases hd
    · exact hnew (mem_map_of_mem (f := Prod.fst) hd)
  have hnone : u.utxos.get p = none := by
    rw [Option.eq_none_iff_forall_ne_some]
    exact fun d hd => hno d ((h.shown p d).mp hd).2
  refine ⟨fun o d => ?_, fun o d => ?_, h.once, ?_, ?_, ?_⟩
  · show (putCoin u.utxos p c).get o = some d ↔ _
    rw [putCoin_get_iff hnone, mem_append, mem_singleton, or_and_right, ← or_assoc, and_or_left, ← h.shown]
    refine or_congr_right ⟨fun hd => ⟨?_, hd⟩, And.right⟩
    rw [(Prod.mk.inj hd.1).1]
    exact hout
  · show (o, d) ∈ u.taken ↔ _
    rw [h.taken, mem_append, mem_singleton]
    refine and_congr_right fun ho => or_congr_right (and_congr_left fun _ => ⟨.inl, ?_⟩)
    rintro (hd | ⟨rfl, -⟩)
    · exact hd
    · exact absurd ho hout
  · show u.restored ++ _ = _
    rw [map_append, ← h.restored]
    congr 3
    show ((putCoin u.utxos p c).get p).getD Coin.empty = _
    unfold putCoin
    split
    · rw [hnone, Option.getD_none]
    · rw [FMap.insert_get_self, Option.getD_some]
  · rw [map_append]
    refine nodup_append.mpr ⟨h.keys, nodup_singleton _, fun a ha b hb heq => hnew ?_⟩
    rwa [heq, mem_singleton.mp hb] at ha
  · intro e he
    rcases mem_append.mp he with he | he
    · exact h.absent e he
    · rw [mem_singleton.mp he]
      exact habsent

/-- **what was taken out and put back is the same** iff no coin of the tip was taken, and every coin put back
was a real one and taken out again -/
theorem perm_iff : u.restored ~ u.taken ↔
    (∀ o, outs o → tip.get o = none) ∧ ∀ e ∈ puts, e.2.Spendable ∧ outs e.1 := by
  have hput : ∀ {o c}, (o, c) ∈ u.restored → ∃ d, (o, d) ∈ puts ∧
      c = if isUnspendable d.out.scriptPubKey then Coin.empty else d := by
    intro o c hc
    rw [h.restored] at hc
    obtain ⟨⟨p, d⟩, hd, heq⟩ := mem_map.mp hc
    obtain ⟨rfl, rfl⟩ := Prod.mk.inj heq
    exact ⟨d, hd, rfl⟩
  have hinj : ∀ {o c d}, (o, c) ∈ puts → (o, d) ∈ puts → c = d := fun hc hd =>
    (Prod.mk.inj (inj_on_of_nodup_map h.keys hc hd rfl)).2
  constructor
  · intro hperm
    refine ⟨fun o ho => ?_, fun e he => ?_⟩
    · rw [Option.eq_none_iff_forall_ne_some]
      intro c hc
      obtain ⟨d, hd, -⟩ := hput (hperm.mem_iff.mpr ((h.taken o c).mpr ⟨ho, .inl hc⟩))
      have := h.absent _ hd
      rw [hc] at this
      cases this
    · have hmem := hperm.mem_iff.mp (h.restored ▸ mem_map_of_mem he)
      obtain ⟨ho, hc | ⟨hc, hspend⟩⟩ := (h.taken _ _).mp hmem
      · rw [h.absent e he] at hc
        cases hc
      · have heq := hinj hc he
        rw [heq] at hspend
        exact ⟨hspend, ho⟩
  · rintro ⟨hnone, hreal⟩
    have hsame : u.restored = puts := by
      rw [h.restored]
      refine (map_congr_left fun e he => ?_).trans (map_id _)
      rw [if_neg (by rw [(hreal e he).1]; exact Bool.false_ne_true)]
      rfl
    rw [hsame]
    refine (perm_ext_iff_of_nodup (h.keys.of_map _) h.once).mpr fun e => ?_
    rw [h.taken]
    constructor
    · exact fun he => ⟨(hreal e he).2, .inr ⟨he, (hreal e he).1⟩⟩
    · rintro ⟨ho, hc | ⟨he, -⟩⟩
      · rw [hnone _ ho] at hc
        cases hc
      · exact he

end Unwinding.Past

end

/-! ## how far the loop comes -/

/-- the inputs that the record of a transaction puts back, last first -/
def putsOf (e : UndoneTx) : List CoinEntry :=
  match e.2 with
  | none => []
  | some txundo => (e.1.vin.zip txundo.vprevout).reverse.map fun x => (x.1.prevout, x.2)

/-- the record has one coin for every input -/
def Sized (e : UndoneTx) : Prop :=
  ∀ txundo ∈ e.2, txundo.vprevout.length = e.1.vin.length

/-- the coin of a record has its height, or another output of its transaction is unspent or among those that
are put back before it -/
def HeightKnown (tip : Utxos) (before : List CoinEntry) (e : CoinEntry) : Prop :=
  e.2.nHeight ≠ 0 ∨ ∃ n < MAX_OUTPUTS_PER_BLOCK, (tip.get ⟨e.1.hash, n⟩).isSome = true ∨
    ∃ c, (⟨e.1.hash, n⟩, c) ∈ before ∧ c.Spendable

def AllKnown (tip : Utxos) : List CoinEntry → List CoinEntry → Prop
  | _, [] => True
  | before, e :: l => HeightKnown tip before e ∧ AllKnown tip (before ++ [e]) l

section
variable {tip : Utxos} {outs : COutPoint → Prop} {before puts : List CoinEntry}
  {u : Unwinding}

theorem allKnown_append {a b : List CoinEntry} :
    AllKnown tip before (a ++ b) ↔ AllKnown tip before a ∧ AllKnown tip (before ++ a) b := by
  induction a generalizing before with
  | nil => simp [AllKnown]
  | cons e a ih => rw [cons_append, AllKnown, AllKnown, ih, and_assoc, append_assoc, singleton_append]

theorem otherOutput_isSome_iff (m : Utxos) (txid : Uint256) (left n : Nat) :
    (otherOutput m txid left n).isSome = true ↔ ∃ j < left, (m.get ⟨txid, n + j⟩).isSome = true := by
  induction left generalizing n with
  | zero => simp [otherOutput]
  | succ left ih =>
    rw [otherOutput]
    cases hget : m.get ⟨txid, n⟩ with
    | some coin => exact iff_of_true rfl ⟨0, by omega, by rw [Nat.add_zero, hget]; rfl⟩
    | none =>
      show (otherOutput m txid left (n + 1)).isSome = true ↔ _
      rw [ih]
      constructor
      · rintro ⟨j, hj, hsome⟩
        exact ⟨j + 1, by omega, by rwa [← Nat.add_assoc, Nat.add_right_comm]⟩
      · rintro ⟨j, hj, hsome⟩
        cases j with
        | zero =>
          rw [Nat.add_zero, hget] at hsome
          cases hsome
        | succ j => exact ⟨j, by omega, by rwa [Nat.add_right_comm]⟩

/-- the coins `l` and `l'` stand at the same places and have the same outputs -/
def Alike (l l' : List CoinEntry) : Prop :=
  (l.map fun e => (e.1, e.2.out)) = l'.map fun e => (e.1, e.2.out)

section
variable {l l' : List CoinEntry} (h : Alike l l')
include h

theorem Alike.exists_mem {o : COutPoint} {c : Coin}
    (hc : (o, c) ∈ l) : ∃ d, (o, d) ∈ l' ∧ d.out = c.out := by
  have hmem : (o, c.out) ∈ l'.map fun e => (e.1, e.2.out) := by
    rw [← h]
    exact mem_map_of_mem (f := fun e : CoinEntry => (e.1, e.2.out)) hc
  obtain ⟨⟨p, d⟩, hd, heq⟩ := mem_map.mp hmem
  obtain ⟨rfl, hout⟩ := Prod.mk.inj heq
  exact ⟨d, hd, hout⟩

theorem Alike.symm : Alike l' l := Eq.symm h

theorem Alike.keys : l.map Prod.fst = l'.map Prod.fst := by
  simpa [Alike, map_map, Function.comp_def] using congrArg (map Prod.fst) h

end

theorem Alike.append {l l' k k' : List CoinEntry} (h : Alike l l') (hk : Alike k k') :
    Alike (l ++ k) (l' ++ k') := by
  rw [Alike, map_append, map_append, h, hk]

/-- the height is found exactly where it is known -/
theorem withMetadata_isSome_iff (h : u.Past tip outs puts) (halike : Alike before puts) {p : COutPoint}
    (hout : ∀ o, outs o → o.hash ≠ p.hash) (coin : Coin) :
    (withMetadata u.utxos p.hash coin).isSome = true ↔ HeightKnown tip before (p, coin) := by
  unfold withMetadata HeightKnown
  by_cases hheight : coin.nHeight = 0
  · rw [if_pos hheight, Option.isSome_map, otherOutput_isSome_iff, or_iff_right (not_not.mpr hheight)]
    refine exists_congr fun n => and_congr_right fun _ => ?_
    rw [Nat.zero_add, Option.isSome_iff_exists, Option.isSome_iff_exists, ← exists_or]
    have hin : ¬ outs ⟨p.hash, n⟩ := fun ho => hout _ ho rfl
    constructor
    · rintro ⟨c, hc⟩
      obtain ⟨-, hc | ⟨hc, hspend⟩⟩ := (h.shown _ c).mp hc
      · exact ⟨c, .inl hc⟩
      · obtain ⟨d, hd, heq⟩ := halike.symm.exists_mem hc
        exact ⟨d, .inr ⟨hd, by rw [Coin.Spendable, heq]; exact hspend⟩⟩
    · rintro ⟨c, hc | ⟨hc, hspend⟩⟩
      · exact ⟨c, (h.shown _ c).mpr ⟨hin, .inl hc⟩⟩
      · obtain ⟨d, hd, heq⟩ := halike.exists_mem hc
        exact ⟨d, (h.shown _ d).mpr ⟨hin, .inr ⟨hd, by rw [Coin.Spendable, heq]; exact hspend⟩⟩⟩
  · rw [if_neg hheight]
    exact iff_of_true rfl (.inl hheight)

theorem withMetadata_out {m : Utxos} {txid : Uint256} {undo coin : Coin}
    (h : withMetadata m txid undo = some coin) : coin.out = undo.out := by
  unfold withMetadata at h
  split at h
  · obtain ⟨alternate, -, rfl⟩ := Option.map_eq_some_iff.mp h
    rfl
  · cases h
    rfl

/-- the inputs `a` are put back, up to the first whose height nobody knows -/
theorem putInputs_past {l : List (CTxIn × Coin)} (h : u.Past tip outs puts) (halike : Alike before puts)
    (hkeys : ((before ++ l.map fun x => (x.1.prevout, x.2)).map Prod.fst).Nodup)
    (habsent : ∀ x ∈ l, tip.get x.1.prevout = none)
    (houts : ∀ x ∈ l, ∀ o, outs o → o.hash ≠ x.1.prevout.hash) :
    ∃ a b puts', (l.map fun x => (x.1.prevout, x.2)) = a ++ b ∧ Alike (before ++ a) puts' ∧
      (Unwinding.putInputs l u).2.Past tip outs puts' ∧ AllKnown tip before a ∧
      ((Unwinding.putInputs l u).1 = true ↔ b = []) ∧ ∀ e ∈ b.head?, ¬ HeightKnown tip (before ++ a) e := by
  induction l generalizing u before puts with
  | nil => exact ⟨[], [], puts, rfl, by rwa [append_nil], h, trivial, iff_of_true rfl rfl, by simp⟩
  | cons x l ih =>
    obtain ⟨txin, undo⟩ := x
    have hknown := withMetadata_isSome_iff h halike (houts _ mem_cons_self) undo
    rw [Unwinding.putInputs]
    cases hmeta : withMetadata u.utxos txin.prevout.hash undo with
    | none =>
      rw [hmeta] at hknown
      refine ⟨[], _, puts, rfl, by rwa [append_nil], h, trivial,
        iff_of_false Bool.false_ne_true (by simp), ?_⟩
      rintro e he hc
      cases he
      rw [append_nil] at hc
      exact absurd (hknown.mpr hc) Bool.false_ne_true
    | some coin =>
      rw [hmeta] at hknown
      have halike' : Alike (before ++ [(txin.prevout, undo)]) (puts ++ [(txin.prevout, coin)]) :=
        halike.append (by rw [Alike, map_singleton, map_singleton, withMetadata_out hmeta])
      rw [map_cons, append_cons] at hkeys
      have hnew : txin.prevout ∉ puts.map Prod.fst := by
        rw [← halike.keys]
        rw [map_append, map_append] at hkeys
        exact fun hc => (nodup_append.mp (nodup_append.mp hkeys).1).2.2 _ hc _ (by simp) rfl
      have hput := h.put hnew (fun ho => houts _ mem_cons_self _ ho rfl) (habsent _ mem_cons_self) coin
      obtain ⟨a, b, puts', heq, hal, hpast, hall, hdone, hstop⟩ := ih hput halike' hkeys
        (fun x hx => habsent x (mem_cons_of_mem _ hx)) fun x hx => houts x (mem_cons_of_mem _ hx)
      refine ⟨(txin.prevout, undo) :: a, b, puts', by rw [map_cons, heq, cons_append], ?_, hpast,
        ⟨hknown.mp rfl, hall⟩, hdone, ?_⟩
      · rwa [append_cons]
      · rwa [append_cons]

/-- the loop gets past the record of a transaction -/
def Fits (tip : Utxos) (before : List CoinEntry) (e : UndoneTx) : Prop :=
  Sized e ∧ AllKnown tip before (putsOf e)

/-- it does not put back a single input -/
def Stuck (tip : Utxos) (before : List CoinEntry) (e : UndoneTx) : Prop :=
  ¬ Sized e ∨ ∃ p ∈ (putsOf e).head?, ¬ HeightKnown tip before p

theorem Stuck.not_fits {e : UndoneTx} (h : Stuck tip before e) : ¬ Fits tip before e := by
  rintro ⟨hsized, hknown⟩
  rcases h with h | ⟨p, hp, h⟩
  · exact h hsized
  · obtain ⟨l, hl⟩ := head?_eq_some_iff.mp hp
    rw [hl] at hknown
    exact h hknown.1

theorem takeBack_past (H : Hashes) {e : UndoneTx} (h : u.Past tip outs puts)
    (halike : Alike before puts) (hids : ∀ o, outs o → o.hash ≠ H.txid e.1)
    (hkeys : ((before ++ putsOf e).map Prod.fst).Nodup) (habsent : ∀ p ∈ putsOf e, tip.get p.1 = none)
    (houts : ∀ p ∈ putsOf e, ∀ o, outs o ∨ Creates H e.1 o → o.hash ≠ p.1.hash) :
    ∃ a puts', a <+: putsOf e ∧ Alike (before ++ a) puts' ∧
      (Unwinding.takeBack H tip e.1 e.2 u).2.Past tip (fun o => outs o ∨ Creates H e.1 o) puts' ∧
      ((Unwinding.takeBack H tip e.1 e.2 u).1 = true → Fits tip before e ∧ a = putsOf e) ∧
      ((Unwinding.takeBack H tip e.1 e.2 u).1 = false →
        ¬ Fits tip before e ∧ (a = [] ↔ Stuck tip before e)) := by
  obtain ⟨tx, txundo⟩ := e
  have htaken : (Unwinding.takeOutputs tip (H.txid tx) 0 tx.vout u).Past tip
      (fun o => outs o ∨ Creates H tx o) puts := by
    refine (h.takeOutputs tx.vout fun n _ hc => hids _ hc rfl).congr fun o => or_congr_right ?_
    simp only [Nat.zero_add, Creates]
    constructor
    · rintro ⟨j, out, rfl, hout⟩
      exact ⟨rfl, out, hout⟩
    · rintro ⟨hhash, out, hout⟩
      exact ⟨o.n, out, congrArg (COutPoint.mk · o.n) hhash, hout⟩
  unfold Unwinding.takeBack
  cases txundo with
  | none =>
    refine ⟨[], puts, nil_prefix, by rwa [append_nil], htaken, fun _ => ⟨⟨?_, trivial⟩, rfl⟩,
      Bool.noConfusion⟩
    exact fun x hx => absurd hx (Option.not_mem_none x)
  | some txundo =>
    dsimp only
    by_cases hlength : txundo.vprevout.length ≠ tx.vin.length
    · rw [if_pos hlength]
      have hsized : ¬ Sized (tx, some txundo) := fun hs => hlength (hs txundo rfl)
      exact ⟨[], puts, nil_prefix, by rwa [append_nil], htaken, Bool.noConfusion, fun _ =>
        ⟨fun hfits => hsized hfits.1, iff_of_true rfl (.inl hsized)⟩⟩
    · rw [if_neg hlength]
      have hsized : Sized (tx, some txundo) := fun x hx => by
        cases hx
        exact not_not.mp hlength
      have hmem : ∀ x ∈ (tx.vin.zip txundo.vprevout).reverse, (x.1.prevout, x.2) ∈ putsOf (tx, some txundo) :=
        fun x hx => mem_map_of_mem (f := fun x : CTxIn × Coin => (x.1.prevout, x.2)) hx
      obtain ⟨a, b, puts', heq, hal, hpast, hknown, hdone, hstop⟩ := putInputs_past htaken halike hkeys
        (fun x hx => habsent _ (hmem x hx)) fun x hx => houts _ (hmem x hx)
      have heq' : putsOf (tx, some txundo) = a ++ b := heq
      refine ⟨a, puts', ⟨b, heq'.symm⟩, hal, hpast, ?_⟩
      rw [Fits, Stuck, heq', allKnown_append]
      cases b with
      | nil =>
        rw [append_nil]
        exact ⟨fun _ => ⟨⟨hsized, hknown, trivial⟩, rfl⟩, fun hc =>
          absurd ((hdone.mpr rfl).symm.trans hc) (by decide)⟩
      | cons p b =>
        have hp := hstop p rfl
        refine ⟨fun hc => absurd (hdone.mp hc) (cons_ne_nil _ _),
          fun _ => ⟨fun hfits => hp hfits.2.2.1, ?_, ?_⟩⟩
        · rintro rfl
          exact .inr ⟨p, rfl, by rwa [append_nil] at hp⟩
        · rintro (hs | ⟨q, hq, hs⟩)
          · exact absurd hsized hs
          · cases a with
            | nil => rfl
            | cons q' a =>
              cases hq
              exact absurd hknown.1 hs

end

/-! ## the whole block -/

def FitsAll (tip : Utxos) (done : List UndoneTx) : Prop :=
  (∀ e ∈ done, Sized e) ∧ AllKnown tip [] (done.flatMap putsOf)

/-- the transactions of a block from the last on: their outputs and inputs are apart, and nothing that one
of them spends is unspent or created by it or by one before it in the list -/
structure Chained (H : Hashes) (tip : Utxos) (order : List UndoneTx) : Prop where
  below : order.Pairwise fun a b => H.txid a.1 ≠ H.txid b.1 ∧ ∀ p ∈ putsOf b, p.1.hash ≠ H.txid a.1
  own : ∀ e ∈ order, ∀ p ∈ putsOf e, p.1.hash ≠ H.txid e.1
  keys : ((order.flatMap putsOf).map Prod.fst).Nodup
  absent : ∀ e ∈ order, ∀ p ∈ putsOf e, tip.get p.1 = none

/-- The loop stops between `done` and `rest` and leaves nothing behind: every spendable output of the
transactions that it has gone through is spent, and every coin that it has put back is a real one at such an
output. -/
structure StopsClosed (H : Hashes) (tip : Utxos) (done rest : List UndoneTx) : Prop where
  fits : FitsAll tip done
  stuck : ∀ e ∈ rest.take 1, Stuck tip (done.flatMap putsOf) e
  spent : ∀ e ∈ done ++ rest.take 1, ∀ o, Creates H e.1 o → tip.get o = none
  inner : ∀ p ∈ done.flatMap putsOf, p.2.Spendable ∧ ∃ e ∈ done ++ rest.take 1, Creates H e.1 p.1

section
variable {H : Hashes} {tip : Utxos}

theorem fitsAll_concat {done : List UndoneTx} {e : UndoneTx} :
    FitsAll tip (done ++ [e]) ↔ FitsAll tip done ∧ Fits tip (done.flatMap putsOf) e := by
  rw [FitsAll, flatMap_append, flatMap_singleton, allKnown_append, forall_mem_append, forall_mem_singleton,
    nil_append, FitsAll, Fits, and_and_and_comm]

theorem takeBackAll_past {done order : List UndoneTx} {puts : List CoinEntry}
    {u : Unwinding} (hchain : Chained H tip (done ++ order)) (hfits : FitsAll tip done)
    (h : u.Past tip (fun o => ∃ e ∈ done, Creates H e.1 o) puts) (halike : Alike (done.flatMap putsOf) puts) :
    ∃ done' rest a puts', done ++ order = done' ++ rest ∧ FitsAll tip done' ∧
      Alike (done'.flatMap putsOf ++ a) puts' ∧
      (Unwinding.takeBackAll H tip order u).2.Past tip
        (fun o => ∃ e ∈ done' ++ rest.take 1, Creates H e.1 o) puts' ∧
      (rest = [] ∧ a = [] ∨ ∃ e r, rest = e :: r ∧ ¬ Fits tip (done'.flatMap putsOf) e ∧ a ⊆ putsOf e ∧
        (a = [] ↔ Stuck tip (done'.flatMap putsOf) e)) := by
  induction order generalizing done puts u with
  | nil =>
    refine ⟨done, [], [], puts, rfl, hfits, by rwa [append_nil], ?_, .inl ⟨rfl, rfl⟩⟩
    rwa [take_nil, append_nil]
  | cons e order ih =>
    have hmem : e ∈ done ++ e :: order := mem_append_right _ mem_cons_self
    have hbelow := fun x hx => (pairwise_append.mp hchain.below).2.2 x hx e mem_cons_self
    have hkeys : ((done.flatMap putsOf ++ putsOf e).map Prod.fst).Nodup := by
      have := hchain.keys
      rw [append_cons, flatMap_append, flatMap_append, flatMap_singleton, map_append] at this
      exact (nodup_append.mp this).1
    obtain ⟨a, puts', hpre, hal, hpast, hdone, hfailed⟩ := takeBack_past H (e := e) h halike
      (fun o ⟨x, hx, hc⟩ => hc.1 ▸ (hbelow x hx).1) hkeys (hchain.absent e hmem) fun p hp o hc => by
        rcases hc with ⟨x, hx, hc⟩ | hc
        · exact hc.1 ▸ ((hbelow x hx).2 p hp).symm
        · exact hc.1 ▸ (hchain.own e hmem p hp).symm
    have hgone : (Unwinding.takeBack H tip e.1 e.2 u).2.Past tip
        (fun o => ∃ x ∈ done ++ [e], Creates H x.1 o) puts' :=
      hpast.congr fun o => by simp [or_and_right, exists_or]
    rw [Unwinding.takeBackAll]
    cases hback : Unwinding.takeBack H tip e.1 e.2 u with
    | mk ok u₁ =>
      rw [hback] at hdone hfailed hgone
      cases ok with
      | true =>
        obtain ⟨hfit, rfl⟩ := hdone rfl
        rw [append_cons] at hchain ⊢
        exact ih hchain (fitsAll_concat.mpr ⟨hfits, hfit⟩) hgone (by rwa [flatMap_append, flatMap_singleton])
      | false =>
        exact ⟨done, e :: order, a, puts', rfl, hfits, hal, hgone,
          .inr ⟨e, order, rfl, (hfailed rfl).1, hpre.subset, (hfailed rfl).2⟩⟩

/-- the loop stops at one place only -/
theorem stop_unique {done done' rest rest' : List UndoneTx}
    (heq : done ++ rest = done' ++ rest') (hfits : FitsAll tip done')
    (hstop : ∀ e ∈ rest.take 1, ¬ Fits tip (done.flatMap putsOf) e) : ∃ l, done = done' ++ l := by
  rcases append_eq_append_iff.mp heq with ⟨l, rfl, rfl⟩ | ⟨l, rfl, -⟩
  · cases l with
    | nil => exact ⟨[], by rw [append_nil, append_nil]⟩
    | cons e l =>
      rw [append_cons] at hfits
      have hfit : FitsAll tip (done ++ [e]) := by
        rw [FitsAll, flatMap_append, allKnown_append] at hfits
        exact ⟨fun x hx => hfits.1 x (mem_append_left _ hx), hfits.2.1⟩
      exact absurd (fitsAll_concat.mp hfit).2 (hstop e (by simp))
  · exact ⟨l, rfl⟩

/-- **The coins cancel out iff the loop stops at a place that is closed.** -/
theorem perm_iff_stopsClosed {order : List UndoneTx} (hchain : Chained H tip order) :
    (Unwinding.takeBackAll H tip order (Unwinding.begin tip)).2.restored ~
        (Unwinding.takeBackAll H tip order (Unwinding.begin tip)).2.taken ↔
      ∃ done rest, order = done ++ rest ∧ StopsClosed H tip done rest := by
  obtain ⟨done, rest, a, puts, heq, hfits, halike, hpast, hend⟩ := takeBackAll_past
    (show Chained H tip ([] ++ order) from hchain) ⟨fun e he => absurd he not_mem_nil, trivial⟩
    ((past_begin tip).congr fun o => by simp) rfl
  rw [nil_append] at heq
  have hstop : ∀ e ∈ rest.take 1, ¬ Fits tip (done.flatMap putsOf) e := by
    rcases hend with ⟨rfl, -⟩ | ⟨e, r, rfl, hmis, -⟩
    · simp
    · exact forall_mem_singleton.mpr hmis
  rw [hpast.perm_iff]
  constructor
  · rintro ⟨hnone, hreal⟩
    have hcoins : ∀ p ∈ done.flatMap putsOf ++ a, p.2.Spendable ∧
        ∃ e ∈ done ++ rest.take 1, Creates H e.1 p.1 := by
      intro p hp
      obtain ⟨d, hd, hout⟩ := halike.exists_mem hp
      obtain ⟨hspend, hcreates⟩ := hreal _ hd
      exact ⟨by rw [Coin.Spendable, ← hout]; exact hspend, hcreates⟩
    refine ⟨done, rest, heq, hfits, fun e he => ?_, fun e he o ho => hnone o ⟨e, he, ho⟩,
      fun p hp => hcoins p (mem_append_left _ hp)⟩
    rcases hend with ⟨rfl, -⟩ | ⟨x, r, rfl, -, hsub, hiff⟩
    · exact absurd he (by simp)
    · obtain rfl := mem_singleton.mp he
      refine hiff.mp (eq_nil_iff_forall_not_mem.mpr fun p hp => ?_)
      -- an input of the last transaction would be an output of it or of a later one
      obtain ⟨-, y, hy, hc⟩ := hcoins p (mem_append_right _ hp)
      rw [heq] at hchain
      rcases mem_append.mp hy with hy | hy
      · exact ((pairwise_append.mp hchain.below).2.2 y hy e mem_cons_self).2 p (hsub hp) hc.1
      · rw [mem_singleton.mp hy] at hc
        exact hchain.own e (mem_append_right _ mem_cons_self) p (hsub hp) hc.1
  · rintro ⟨done', rest', heq', hclosed⟩
    obtain ⟨l, hl⟩ := stop_unique (heq.symm.trans heq') hclosed.fits hstop
    obtain ⟨l', hl'⟩ := stop_unique (heq'.symm.trans heq) hfits fun e he => (hclosed.stuck e he).not_fits
    obtain rfl : done = done' := by
      have := congrArg length hl
      have := congrArg length hl'
      rw [length_append] at *
      obtain rfl : l = [] := length_eq_zero_iff.mp (by omega)
      rw [hl, append_nil]
    obtain rfl : rest = rest' := append_cancel_left (heq.symm.trans heq')
    have ha : a = [] := by
      rcases hend with ⟨-, ha⟩ | ⟨e, r, rfl, -, -, hiff⟩
      · exact ha
      · exact hiff.mpr (hclosed.stuck e (mem_singleton_self _))
    rw [ha, append_nil] at halike
    refine ⟨fun o ⟨e, he, ho⟩ => hclosed.spent e he o ho, fun e he => ?_⟩
    obtain ⟨d, hd, hout⟩ := halike.symm.exists_mem (o := e.1) (c := e.2) he
    obtain ⟨hspend, hcreates⟩ := hclosed.inner _ hd
    exact ⟨by rw [Coin.Spendable, ← hout]; exact hspend, hcreates⟩

end

/-! ## a block that was connected -/

/-- what connecting `block` has left: the ids of its transactions are apart, none spends an output of itself
or of a later one, and their inputs are different and gone -/
structure TipOf (H : Hashes) (block : CBlock) (tip : Utxos) : Prop where
  later : block.vtx.Pairwise fun a b =>
    H.txid a ≠ H.txid b ∧ ∀ txin ∈ a.vin, txin.prevout.hash ≠ H.txid b
  own : ∀ tx ∈ block.vtx, ∀ txin ∈ tx.vin, txin.prevout.hash ≠ H.txid tx
  inputs : ((block.vtx.tail.flatMap CTransaction.vin).map CTxIn.prevout).Nodup
  gone : ∀ tx ∈ block.vtx.tail, ∀ txin ∈ tx.vin, tip.get txin.prevout = none

section
variable {H : Hashes} {tip : Utxos}

theorem map_fst_zip_sublist {α β : Type} (l : List α) (l' : List β) : (l.zip l').map Prod.fst <+ l := by
  induction l generalizing l' with
  | nil => exact nil_sublist _
  | cons a l ih =>
    cases l' with
    | nil => exact nil_sublist _
    | cons b l' => exact (ih l').cons_cons a

theorem putsOf_keys (tx : CTransaction) (txundo : CTxUndo) :
    (putsOf (tx, some txundo)).map Prod.fst <+ (tx.vin.map CTxIn.prevout).reverse := by
  have hkeys : (putsOf (tx, some txundo)).map Prod.fst =
      (((tx.vin.zip txundo.vprevout).map Prod.fst).map CTxIn.prevout).reverse := by
    simp [putsOf, Function.comp_def]
  rw [hkeys, reverse_sublist]
  exact (map_fst_zip_sublist _ _).map _

theorem mem_putsOf {tx : CTransaction} {txundo : CTxUndo} {p : CoinEntry}
    (h : p ∈ putsOf (tx, some txundo)) : ∃ txin ∈ tx.vin, txin.prevout = p.1 := by
  have := (putsOf_keys tx txundo).subset (mem_map_of_mem (f := Prod.fst) h)
  obtain ⟨txin, hin, heq⟩ := mem_map.mp (mem_reverse.mp this)
  exact ⟨txin, hin, heq⟩

theorem keys_sublist (txs : List CTransaction) (vtxundo : List CTxUndo) :
    ((txs.zip (vtxundo.map some)).reverse.flatMap putsOf).map Prod.fst <+
      ((txs.flatMap CTransaction.vin).map CTxIn.prevout).reverse := by
  induction txs generalizing vtxundo with
  | nil => exact nil_sublist _
  | cons tx txs ih =>
    cases vtxundo with
    | nil => exact nil_sublist _
    | cons txundo vtxundo =>
      rw [map_cons, zip_cons_cons, reverse_cons, flatMap_append, flatMap_singleton, map_append, flatMap_cons,
        map_append, reverse_append]
      exact (ih vtxundo).append (putsOf_keys tx txundo)

theorem chained_unwindOrder {block : CBlock} (h : TipOf H block tip) (blockUndo : CBlockUndo) :
    Chained H tip (unwindOrder block blockUndo) := by
  obtain ⟨hlater, hown, hnodup, hnone⟩ := h
  rw [unwindOrder]
  cases hvtx : block.vtx with
  | nil => exact ⟨.nil, by simp, nodup_nil, by simp⟩
  | cons coinbase txs =>
  rw [hvtx] at hlater hown hnodup hnone
  obtain ⟨hlater, hrest⟩ := pairwise_cons.mp hlater
  rw [zip_cons_cons, reverse_cons]
  have hmem : ∀ e ∈ txs.zip (blockUndo.vtxundo.map some), ∀ p ∈ putsOf e,
      e.1 ∈ txs ∧ ∃ txin ∈ e.1.vin, txin.prevout = p.1 := by
    rintro ⟨tx, txundo⟩ he p hp
    obtain ⟨htx, hundo⟩ := of_mem_zip he
    obtain ⟨txundo, -, rfl⟩ := mem_map.mp hundo
    exact ⟨htx, mem_putsOf hp⟩
  have hcoin : ∀ p, p ∉ putsOf (coinbase, none) := fun p => not_mem_nil
  refine ⟨pairwise_append.mpr ⟨?_, pairwise_singleton _ _, ?_⟩, ?_, ?_, ?_⟩
  · rw [pairwise_reverse]
    have hzip : (txs.zip (blockUndo.vtxundo.map some)).Pairwise fun a b => H.txid a.1 ≠ H.txid b.1 ∧
        ∀ txin ∈ a.1.vin, txin.prevout.hash ≠ H.txid b.1 := by
      have := hrest.sublist (map_fst_zip_sublist txs (blockUndo.vtxundo.map some))
      rwa [pairwise_map] at this
    refine hzip.imp_of_mem fun {a b} ha _ hab => ⟨hab.1.symm, fun p hp => ?_⟩
    obtain ⟨-, txin, hin, heq⟩ := hmem a ha p hp
    exact heq ▸ hab.2 txin hin
  · intro a ha b hb
    rw [mem_singleton.mp hb]
    exact ⟨((hlater a.1 (of_mem_zip (mem_reverse.mp ha)).1).1).symm, fun p hp => absurd hp (hcoin p)⟩
  · intro e he p hp
    rcases mem_append.mp he with he | he
    · obtain ⟨htx, txin, hin, heq⟩ := hmem e (mem_reverse.mp he) p hp
      exact heq ▸ hown e.1 (mem_cons_of_mem _ htx) txin hin
    · rw [mem_singleton.mp he] at hp
      exact absurd hp (hcoin p)
  · rw [flatMap_append, map_append]
    show (_ ++ []).Nodup
    rw [append_nil]
    exact (nodup_reverse.mpr hnodup).sublist (keys_sublist txs blockUndo.vtxundo)
  · intro e he p hp
    rcases mem_append.mp he with he | he
    · obtain ⟨htx, txin, hin, heq⟩ := hmem e (mem_reverse.mp he) p hp
      exact heq ▸ hnone e.1 htx txin hin
    · rw [mem_singleton.mp he] at hp
      exact absurd hp (hcoin p)

end

/-! ## DisconnectTip -/

/-- Where the block and its undo data can be read and have one length, the disconnection stops at a place that
leaves nothing behind. -/
def Untouched (H : Hashes) (tip : Utxos) (block : Option CBlock) (blockUndo : Option CBlockUndo) : Prop :=
  ∀ b ∈ block, ∀ u ∈ blockUndo, u.vtxundo.length + 1 = b.vtx.length →
    ∃ done rest, unwindOrder b u = done ++ rest ∧ StopsClosed H tip done rest

section
variable {G : Type} [CommGroup G] (M : MuHash G) (H : Hashes) (pos : BlockPlace)

/-- the hash tells what was taken out from what was put back -/
def Unwinding.NoCollision (u : Unwinding) : Prop :=
  coinsProduct M u.restored = coinsProduct M u.taken → u.restored ~ u.taken

theorem cancels_iff_perm {u : Unwinding} (hfree : u.NoCollision M) : u.Cancels M ↔ u.restored ~ u.taken := by
  refine ⟨fun h => hfree h.1, fun h => ⟨(h.map _).prod_eq, ?_⟩⟩
  rw [h.length_eq]

theorem perm_iff_untouched {tip : Utxos} {block : Option CBlock} {blockUndo : Option CBlockUndo}
    (htip : ∀ b ∈ block, TipOf H b tip) :
    (unwoundOver H tip block blockUndo).restored ~ (unwoundOver H tip block blockUndo).taken ↔
      Untouched H tip block blockUndo := by
  unfold unwoundOver Untouched
  cases block with
  | none => exact iff_of_true (Perm.refl _) fun b hb => absurd hb (Option.not_mem_none b)
  | some b =>
    cases blockUndo with
    | none => exact iff_of_true (Perm.refl _) fun _ _ u hu => absurd hu (Option.not_mem_none u)
    | some u =>
      simp only [Option.mem_def, Option.some.injEq, forall_eq']
      by_cases hlength : u.vtxundo.length + 1 ≠ b.vtx.length
      · rw [if_pos hlength]
        exact iff_of_true (Perm.refl _) fun hc => absurd hc hlength
      · rw [if_neg hlength, forall_prop_of_true (not_not.mp hlength)]
        exact perm_iff_stopsClosed (chained_unwindOrder (htip b rfl) u)

/-- **A disconnection that fails leaves the coins alone, and the accumulator iff it stops at a place that
leaves nothing behind.** -/
theorem disconnectTip_failed_iff {flush : FlushEnv} {s s' : ChainCoins G} {block : Option CBlock}
    (hok : s.coins.coinsTip.Ok) (htip : ∀ b ∈ block, TipOf H b s.coins.coinsTip.utxos)
    (hfree : (unwoundOver H s.coins.coinsTip.utxos block (s.undo.get pos.hash)).NoCollision M)
    (h : FailsEarly M H flush s pos block s') :
    s'.coins.coinsTip.utxos = s.coins.coinsTip.utxos ∧
      (s'.coins.utxoMuHash M = s.coins.utxoMuHash M ↔
        Untouched H s.coins.coinsTip.utxos block (s.undo.get pos.hash)) := by
  obtain ⟨hcoins, hiff⟩ := disconnectTip_cancels_iff M H pos hok h
  exact ⟨hcoins, hiff.trans ((cancels_iff_perm M hfree).trans (perm_iff_untouched H htip))⟩

end

/-- a coinbase, a payment at height 2, and a transaction that throws the payment away -/
def passedBlock : CBlock :=
  { sampleMined 3 with vtx := [sampleTx COutPoint.null 5 2, sampleTx ⟨sampleId 7, 0⟩ 5 1,
    { sampleTx ⟨Uint256.ofByte 1, 0⟩ 5 3 with vout := [⟨0, [OP_RETURN]⟩] }] }

/-- its tip: the record of the payment is empty, that of the last transaction is whole -/
def passedTip : ChainCoins (Multiplicative ℤ) where
  coins := ⟨CacheLayer.empty false,
    ⟨FMap.empty.insert ⟨Uint256.ofByte 2, 0⟩ ⟨⟨5, [OP_1]⟩, true, 2⟩, sampleId 3, [],
      unspent_insert (by simp) _ rfl⟩,
    UTXOMuHashState.empty, false, none⟩
  tip := some (sampleId 3)
  undo := FMap.empty.insert (sampleId 3) ⟨[⟨[]⟩, ⟨[⟨⟨5, [OP_1]⟩, false, 2⟩]⟩]⟩

theorem disconnectTip_failed_iff_passed : ∃ s' : ChainCoins (Multiplicative ℤ),
    FailsEarly sampleMuHash sampleHashes sampleDisk passedTip brokenPlace (some passedBlock) s' ∧
      s'.coins.utxoMuHash sampleMuHash = passedTip.coins.utxoMuHash sampleMuHash := by
  obtain ⟨s', hs'⟩ : ∃ s', FailsEarly sampleMuHash sampleHashes sampleDisk passedTip brokenPlace
      (some passedBlock) s' := ⟨_, rfl, fun b hb => by cases hb; exact ⟨_, rfl, by decide⟩⟩
  refine ⟨s', hs', ((disconnectTip_failed_iff sampleMuHash sampleHashes brokenPlace
    (s := passedTip) ⟨trivial, layerOk_empty rfl _⟩ ?_ ?_ hs').2).mpr ?_⟩
  · rintro b hb
    cases hb
    exact ⟨by decide, by decide, by decide, by decide⟩
  · exact fun _ => .of_eq rfl
  · rintro b hb u hu -
    cases hb
    cases hu
    refine ⟨[_], [_, _], rfl, ⟨?_, ?_⟩, ?_, ?_, ?_⟩
    · rw [forall_mem_singleton]
      intro x hx
      cases hx
      rfl
    · exact ⟨.inl (by decide), trivial⟩
    · rw [take_succ_cons, take_zero, forall_mem_singleton]
      exact .inl fun hsized => absurd (hsized _ rfl) (by decide)
    · simp only [take_succ_cons, take_zero, cons_append, nil_append, forall_mem_cons]
      refine ⟨?_, ?_, fun _ hx => absurd hx not_mem_nil⟩
      · rintro ⟨hash, n⟩ ⟨rfl, out, hout, hspend⟩
        cases n with
        | zero =>
          cases hout
          cases hspend
        | succ n => cases hout
      · rintro ⟨hash, n⟩ ⟨rfl, out, hout, -⟩
        cases n with
        | zero => rfl
        | succ n => cases hout
    · rw [flatMap_singleton]
      exact forall_mem_singleton.mpr ⟨rfl, _, mem_append_right _ mem_cons_self, rfl, _, rfl, rfl⟩

end ElektronNet
