import Khc.Market.Rates
import Mathlib.Logic.Function.Basic

/-! The buckets in which the trades of a market are gathered and the history of its filled orders (`market_history_plugin.cpp`). Times are
    seconds of 32 bits. -/

namespace Khc.MarketHistory

open Chain

/-- `bucket_key` -/
structure BucketKey where
  base : AssetId
  quote : AssetId
  seconds : Nat
  openTime : Nat
  deriving DecidableEq

/-- `bucket_object` -/
structure Bucket where
  highBase : Int
  highQuote : Int
  lowBase : Int
  lowQuote : Int
  openBase : Int
  openQuote : Int
  closeBase : Int
  closeQuote : Int
  baseVolume : Int
  quoteVolume : Int

def Bucket.high (b : Bucket) (key : BucketKey) : Price := ⟨⟨b.highBase, key.base⟩, ⟨b.highQuote, key.quote⟩⟩

def Bucket.low (b : Bucket) (key : BucketKey) : Price := ⟨⟨b.lowBase, key.base⟩, ⟨b.lowQuote, key.quote⟩⟩

/-- `fill_order_operation` -/
structure FillOrder where
  pays : Asset
  receives : Asset
  fillPrice : Price
  isMaker : Bool

/-- The options of the plugin. `tracked_buckets` is a `flat_set`, and the plugin divides by its members. -/
structure Options where
  maxHistory : Nat
  trackedBuckets : List Nat
  sorted : trackedBuckets.Pairwise (· < ·)
  positive : ∀ bucket ∈ trackedBuckets, 0 < bucket
  maxOrderHisRecords : Nat
  maxOrderHisSeconds : Nat

/-- The index of the buckets by their keys -/
abbrev Buckets := BucketKey → Option Bucket

/-- `volume += amount`, or the greatest volume if that throws -/
def addVolume (volume amount : Int) : Int := if volume + amount ≤ maxInt64 then volume + amount else maxInt64

def Bucket.create (tradePrice fillPrice : Price) : Bucket where
  highBase := fillPrice.base.amount
  highQuote := fillPrice.quote.amount
  lowBase := fillPrice.base.amount
  lowQuote := fillPrice.quote.amount
  openBase := fillPrice.base.amount
  openQuote := fillPrice.quote.amount
  closeBase := fillPrice.base.amount
  closeQuote := fillPrice.quote.amount
  baseVolume := tradePrice.base.amount
  quoteVolume := tradePrice.quote.amount

def Bucket.update (b : Bucket) (key : BucketKey) (tradePrice fillPrice : Price) : Bucket where
  highBase := if (b.high key).lt fillPrice then fillPrice.base.amount else b.highBase
  highQuote := if (b.high key).lt fillPrice then fillPrice.quote.amount else b.highQuote
  lowBase := if (b.low key).gt fillPrice then fillPrice.base.amount else b.lowBase
  lowQuote := if (b.low key).gt fillPrice then fillPrice.quote.amount else b.lowQuote
  openBase := b.openBase
  openQuote := b.openQuote
  closeBase := fillPrice.base.amount
  closeQuote := fillPrice.quote.amount
  baseVolume := addVolume b.baseVolume tradePrice.base.amount
  quoteVolume := addVolume b.quoteVolume tradePrice.quote.amount

/-- The buckets that open before are too old. -/
def cutoff (maxHistory bucket now : Nat) : Nat :=
  let bucketNum := now / bucket
  if maxHistory < bucketNum then bucket * (bucketNum - maxHistory) else 0

/-- One round of the loop over the tracked buckets, with the loop that removes old ones -/
def processBucket (maxHistory now : Nat) (tradePrice fillPrice : Price) (buckets : Buckets) (bucket : Nat) : Buckets :=
  let key := ⟨tradePrice.base.assetId, tradePrice.quote.assetId, bucket, now / bucket * bucket⟩
  let updated := Function.update buckets key <| match buckets key with
    | none => some (Bucket.create tradePrice fillPrice)
    | some b => some (b.update key tradePrice fillPrice)
  fun k => if k.base = key.base ∧ k.quote = key.quote ∧ k.seconds = bucket ∧ k.openTime < cutoff maxHistory bucket now then none
    else updated k

/-- A price with the lesser asset as its base -/
def ordered (p : Price) : Price := if p.quote.assetId < p.base.assetId then p.inv else p

/-- `operation_process_fill_order`, as far as buckets are concerned. The division of an asset by one of the same id throws. -/
def processFillOrder (o : Options) (now : Nat) (buckets : Buckets) (op : FillOrder) : Buckets :=
  if ¬op.isMaker ∨ op.pays.assetId = op.receives.assetId ∨ o.maxHistory = 0 then buckets
  else o.trackedBuckets.foldl (processBucket o.maxHistory now (ordered ⟨op.pays, op.receives⟩) (ordered op.fillPrice)) buckets

/-- `update_market_histories`, with the time of a block and the orders that were filled in it -/
def updateMarketHistories (o : Options) (buckets : Buckets) (block : Nat × List FillOrder) : Buckets :=
  block.2.foldl (processFillOrder o block.1) buckets

/-! ### Trades -/

/-- A trade for which buckets are updated -/
structure Trade where
  now : Nat
  tradePrice : Price
  fillPrice : Price

def FillOrder.trade (now : Nat) (op : FillOrder) : Option Trade :=
  if op.isMaker ∧ op.pays.assetId ≠ op.receives.assetId then some ⟨now, ordered ⟨op.pays, op.receives⟩, ordered op.fillPrice⟩ else none

/-- The trades of blocks -/
def trades (blocks : List (Nat × List FillOrder)) : List Trade := blocks.flatMap fun block => block.2.filterMap (FillOrder.trade block.1)

def Trade.isOf (t : Trade) (key : BucketKey) : Prop := key.base = t.tradePrice.base.assetId ∧ key.quote = t.tradePrice.quote.assetId

instance (t : Trade) (key : BucketKey) : Decidable (t.isOf key) := inferInstanceAs (Decidable (_ ∧ _))

/-- The trade falls into the bucket. -/
def Trade.isIn (t : Trade) (key : BucketKey) : Bool := t.isOf key ∧ key.openTime = t.now / key.seconds * key.seconds

/-- What a trade makes of the bucket at a key -/
def Trade.next (maxHistory : Nat) (key : BucketKey) (bucket : Option Bucket) (t : Trade) : Option Bucket :=
  if t.isOf key ∧ key.openTime < cutoff maxHistory key.seconds t.now then none
  else if t.isIn key then some (bucket.elim (Bucket.create t.tradePrice t.fillPrice) (·.update key t.tradePrice t.fillPrice))
  else bucket

variable {o : Options} {maxHistory now s : Nat} {tp fp : Price} {buckets : Buckets} {key : BucketKey} {t : Trade} {ts : List Trade}
  {b : Bucket}

theorem processBucket_apply : processBucket maxHistory now tp fp buckets s key =
    if key.seconds = s then Trade.next maxHistory key (buckets key) ⟨now, tp, fp⟩ else buckets key := by
  unfold processBucket Trade.next
  dsimp only
  by_cases hs : key.seconds = s
  · subst hs
    rw [if_pos rfl]
    by_cases hcut : key.base = tp.base.assetId ∧ key.quote = tp.quote.assetId ∧ key.openTime < cutoff maxHistory key.seconds now
    · rw [if_pos ⟨hcut.1, hcut.2.1, rfl, hcut.2.2⟩, if_pos ⟨⟨hcut.1, hcut.2.1⟩, hcut.2.2⟩]
    · rw [if_neg fun h => hcut ⟨h.1, h.2.1, h.2.2.2⟩, if_neg fun h => hcut ⟨h.1.1, h.1.2, h.2⟩]
      by_cases hin : (⟨now, tp, fp⟩ : Trade).isIn key
      · obtain ⟨⟨hbase, hquote⟩, htime⟩ := of_decide_eq_true hin
        have hkey : key = ⟨tp.base.assetId, tp.quote.assetId, key.seconds, now / key.seconds * key.seconds⟩ := by
          cases key
          simp_all
        rw [if_pos hin, ← hkey, Function.update_self]
        cases buckets key <;> rfl
      · rw [if_neg hin, Function.update_of_ne]
        intro hkey
        exact hin (decide_eq_true
          ⟨⟨congrArg BucketKey.base hkey, congrArg BucketKey.quote hkey⟩, congrArg BucketKey.openTime hkey⟩)
  · rw [if_neg hs, if_neg fun h => hs h.2.2.1, Function.update_of_ne]
    intro hkey
    exact hs (congrArg BucketKey.seconds hkey)

theorem foldl_processBucket {tracked : List Nat} (h : tracked.Nodup) : tracked.foldl (processBucket maxHistory now tp fp) buckets key =
    if key.seconds ∈ tracked then Trade.next maxHistory key (buckets key) ⟨now, tp, fp⟩ else buckets key := by
  induction tracked generalizing buckets with
  | nil => rfl
  | cons s tracked ih =>
    obtain ⟨hs, hrest⟩ := List.nodup_cons.mp h
    rw [List.foldl_cons, ih hrest, processBucket_apply]
    by_cases hkey : key.seconds = s
    · subst hkey
      rw [if_neg hs, if_pos rfl, if_pos List.mem_cons_self]
    · simp only [List.mem_cons, hkey, false_or, if_false]

/-- At each key the buckets are those that the trades make one after the other. -/
theorem foldl_updateMarketHistories (hmax : o.maxHistory ≠ 0) (hs : key.seconds ∈ o.trackedBuckets)
    (blocks : List (Nat × List FillOrder)) : blocks.foldl (updateMarketHistories o) buckets key =
      (trades blocks).foldl (Trade.next o.maxHistory key) (buckets key) := by
  have htracked : o.trackedBuckets.Nodup := o.sorted.imp fun hlt => hlt.ne
  have hblock : ∀ (now : Nat) (ops : List FillOrder) (buckets : Buckets), ops.foldl (processFillOrder o now) buckets key =
      (ops.filterMap (FillOrder.trade now)).foldl (Trade.next o.maxHistory key) (buckets key) := by
    intro now ops
    induction ops with
    | nil => exact fun _ => rfl
    | cons op ops ih =>
      intro buckets
      rw [List.foldl_cons, ih, processFillOrder, List.filterMap_cons, FillOrder.trade]
      by_cases hop : op.isMaker ∧ op.pays.assetId ≠ op.receives.assetId
      · rw [if_pos hop, if_neg (by simp [hop, hmax]), foldl_processBucket htracked, if_pos hs]
        rfl
      · rw [if_neg hop, if_pos (by grind)]
  rw [trades, List.foldl_flatMap]
  exact (List.foldl_hom (fun buckets : Buckets => buckets key) fun buckets block => (hblock block.1 block.2 buckets).symm).symm

/-! ### What a bucket tells -/

/-- The price is one of the market, and the amounts fit into an `int64_t`. -/
structure Trade.Fair (t : Trade) : Prop where
  valid : t.fillPrice.Valid
  base : t.fillPrice.base.assetId = t.tradePrice.base.assetId
  quote : t.fillPrice.quote.assetId = t.tradePrice.quote.assetId
  baseAmount : 0 ≤ t.tradePrice.base.amount ∧ t.tradePrice.base.amount ≤ maxInt64
  quoteAmount : 0 ≤ t.tradePrice.quote.amount ∧ t.tradePrice.quote.amount ≤ maxInt64

/-- The same for the filled order, whose price may be the other way round -/
structure FillOrder.Fair (op : FillOrder) : Prop where
  valid : op.fillPrice.Valid
  market : op.fillPrice.base.assetId = op.pays.assetId ∧ op.fillPrice.quote.assetId = op.receives.assetId ∨
    op.fillPrice.base.assetId = op.receives.assetId ∧ op.fillPrice.quote.assetId = op.pays.assetId
  pays : 0 ≤ op.pays.amount ∧ op.pays.amount ≤ maxInt64
  receives : 0 ≤ op.receives.amount ∧ op.receives.amount ≤ maxInt64

instance (op : FillOrder) : Decidable op.Fair :=
  decidable_of_iff (op.fillPrice.Valid ∧
    (op.fillPrice.base.assetId = op.pays.assetId ∧ op.fillPrice.quote.assetId = op.receives.assetId ∨
      op.fillPrice.base.assetId = op.receives.assetId ∧ op.fillPrice.quote.assetId = op.pays.assetId) ∧
    (0 ≤ op.pays.amount ∧ op.pays.amount ≤ maxInt64) ∧ 0 ≤ op.receives.amount ∧ op.receives.amount ≤ maxInt64)
    ⟨fun ⟨h₁, h₂, h₃, h₄⟩ => ⟨h₁, h₂, h₃, h₄⟩, fun h => ⟨h.valid, h.market, h.pays, h.receives⟩⟩

/-- The opening, closing, greatest and least prices of the trades, and their volumes, which are capped -/
structure Summarizes (key : BucketKey) (ts : List Trade) (b : Bucket) : Prop where
  opens : ts.head?.map (fun t => (t.fillPrice.base.amount, t.fillPrice.quote.amount)) = some (b.openBase, b.openQuote)
  closes : ts.getLast?.map (fun t => (t.fillPrice.base.amount, t.fillPrice.quote.amount)) = some (b.closeBase, b.closeQuote)
  baseVolume : b.baseVolume = min maxInt64 (ts.map (·.tradePrice.base.amount)).sum
  quoteVolume : b.quoteVolume = min maxInt64 (ts.map (·.tradePrice.quote.amount)).sum
  high : ∃ t ∈ ts, b.high key = t.fillPrice
  le_high : ∀ t ∈ ts, t.fillPrice.rate ≤ (b.high key).rate
  low : ∃ t ∈ ts, b.low key = t.fillPrice
  low_le : ∀ t ∈ ts, (b.low key).rate ≤ t.fillPrice.rate

theorem cutoff_mono {now' : Nat} (h : now ≤ now') : cutoff maxHistory s now ≤ cutoff maxHistory s now' := by
  have hdiv : now / s ≤ now' / s := Nat.div_le_div_right h
  unfold cutoff
  dsimp only
  split
  · rw [if_pos (by omega)]
    exact Nat.mul_le_mul_left s (by omega)
  · exact Nat.zero_le _

theorem Trade.Fair.fillPrice_eq (h : t.Fair) (hof : t.isOf key) :
    (⟨⟨t.fillPrice.base.amount, key.base⟩, ⟨t.fillPrice.quote.amount, key.quote⟩⟩ : Price) = t.fillPrice := by
  rw [hof.1, hof.2, ← h.base, ← h.quote]

theorem Summarizes.create (h : t.Fair) (hof : t.isOf key) : Summarizes key [t] (Bucket.create t.tradePrice t.fillPrice) := by
  have hprice := h.fillPrice_eq hof
  refine ⟨rfl, rfl, ?_, ?_, ⟨t, List.mem_cons_self, hprice⟩, fun u hu => ?_, ⟨t, List.mem_cons_self, hprice⟩, fun u hu => ?_⟩
  · rw [List.map_singleton, List.sum_singleton, min_eq_right h.baseAmount.2]
    rfl
  · rw [List.map_singleton, List.sum_singleton, min_eq_right h.quoteAmount.2]
    rfl
  · rw [List.mem_singleton.mp hu]
    exact (congrArg Price.rate hprice).ge
  · rw [List.mem_singleton.mp hu]
    exact (congrArg Price.rate hprice).le

theorem addVolume_eq {v x : Int} (hx : 0 ≤ x) : addVolume (min maxInt64 v) x = min maxInt64 (v + x) := by
  unfold addVolume
  omega

/-- The rates of two prices of a market decide which one is greater. -/
theorem lt_iff_rate {p q : Price} (hp : p.Valid) (hq : q.Valid) (hb : p.base.assetId = q.base.assetId) (hquote : p.quote.assetId = q.quote.assetId) :
    p.lt q ↔ p.rate < q.rate := (Price.lt_iff hp hq).trans (Price.key_lt_iff hb hquote)

theorem gt_iff_rate {p q : Price} (hp : p.Valid) (hq : q.Valid) (hb : p.base.assetId = q.base.assetId) (hquote : p.quote.assetId = q.quote.assetId) :
    p.gt q ↔ q.rate < p.rate := (Price.gt_iff hp hq).trans (Price.key_lt_iff hb.symm hquote.symm)

theorem Bucket.update_high {p : Price} : (b.update key tp p).high key =
    if (b.high key).lt p then ⟨⟨p.base.amount, key.base⟩, ⟨p.quote.amount, key.quote⟩⟩ else b.high key := by
  show (⟨⟨if (b.high key).lt p then p.base.amount else b.highBase, key.base⟩,
    ⟨if (b.high key).lt p then p.quote.amount else b.highQuote, key.quote⟩⟩ : Price) = _
  split <;> rfl

theorem Bucket.update_low {p : Price} : (b.update key tp p).low key =
    if (b.low key).gt p then ⟨⟨p.base.amount, key.base⟩, ⟨p.quote.amount, key.quote⟩⟩ else b.low key := by
  show (⟨⟨if (b.low key).gt p then p.base.amount else b.lowBase, key.base⟩,
    ⟨if (b.low key).gt p then p.quote.amount else b.lowQuote, key.quote⟩⟩ : Price) = _
  split <;> rfl

theorem Summarizes.update (h : Summarizes key ts b) (hts : ∀ u ∈ ts, u.Fair ∧ u.isOf key) (ht : t.Fair) (hof : t.isOf key) :
    Summarizes key (ts ++ [t]) (b.update key t.tradePrice t.fillPrice) := by
  have hprice := ht.fillPrice_eq hof
  obtain ⟨u, hu, hhigh⟩ := h.high
  obtain ⟨v, hv, hlow⟩ := h.low
  have hmarket : ∀ u ∈ ts, u.fillPrice.base.assetId = t.fillPrice.base.assetId ∧ u.fillPrice.quote.assetId = t.fillPrice.quote.assetId := by
    intro u hu
    obtain ⟨hfair, hkey⟩ := hts u hu
    exact ⟨by rw [hfair.base, ht.base, ← hkey.1, hof.1], by rw [hfair.quote, ht.quote, ← hkey.2, hof.2]⟩
  have hlt := lt_iff_rate (hts u hu).1.valid ht.valid (hmarket u hu).1 (hmarket u hu).2
  have hgt := gt_iff_rate (hts v hv).1.valid ht.valid (hmarket v hv).1 (hmarket v hv).2
  rw [← hhigh] at hlt
  rw [← hlow] at hgt
  have hne : ts ≠ [] := List.ne_nil_of_mem hu
  refine ⟨?_, ?_, ?_, ?_, ?_, ?_, ?_, ?_⟩
  · rw [List.head?_append_of_ne_nil _ hne]
    exact h.opens
  · rw [List.getLast?_concat]
    rfl
  · show addVolume b.baseVolume t.tradePrice.base.amount = _
    rw [h.baseVolume, addVolume_eq ht.baseAmount.1, List.map_append, List.sum_append, List.map_singleton, List.sum_singleton]
  · show addVolume b.quoteVolume t.tradePrice.quote.amount = _
    rw [h.quoteVolume, addVolume_eq ht.quoteAmount.1, List.map_append, List.sum_append, List.map_singleton, List.sum_singleton]
  · rw [Bucket.update_high]
    split
    · exact ⟨t, List.mem_append_right _ List.mem_cons_self, hprice⟩
    · exact ⟨u, List.mem_append_left _ hu, hhigh⟩
  · intro w hw
    rw [Bucket.update_high]
    split
    · next hgreater =>
      rw [hprice]
      rcases List.mem_append.mp hw with hw | hw
      · exact (h.le_high w hw).trans (hlt.mp hgreater).le
      · rw [List.mem_singleton.mp hw]
    · next hnot =>
      rcases List.mem_append.mp hw with hw | hw
      · exact h.le_high w hw
      · rw [List.mem_singleton.mp hw]
        exact not_lt.mp fun hless => hnot (hlt.mpr hless)
  · rw [Bucket.update_low]
    split
    · exact ⟨t, List.mem_append_right _ List.mem_cons_self, hprice⟩
    · exact ⟨v, List.mem_append_left _ hv, hlow⟩
  · intro w hw
    rw [Bucket.update_low]
    split
    · next hless =>
      rw [hprice]
      rcases List.mem_append.mp hw with hw | hw
      · exact (hgt.mp hless).le.trans (h.low_le w hw)
      · rw [List.mem_singleton.mp hw]
    · next hnot =>
      rcases List.mem_append.mp hw with hw | hw
      · exact h.low_le w hw
      · rw [List.mem_singleton.mp hw]
        exact not_lt.mp fun hless => hnot (hgt.mpr hless)

/-! ### Runs -/

/-- A bucket is there if it has trades and no later trade of its market has found it too old. -/
theorem foldl_next (hfair : ∀ t ∈ ts, t.Fair) (htimes : ts.Pairwise fun t u => t.now ≤ u.now) :
    (ts.foldl (Trade.next maxHistory key) none = none ↔
      ts.filter (·.isIn key) = [] ∨ ∃ t ∈ ts, t.isOf key ∧ key.openTime < cutoff maxHistory key.seconds t.now) ∧
    ∀ b ∈ ts.foldl (Trade.next maxHistory key) none, Summarizes key (ts.filter (·.isIn key)) b := by
  induction ts using List.reverseRecOn with
  | nil => exact ⟨by simp, fun b hb => by cases hb⟩
  | append_singleton ts t ih =>
    obtain ⟨hts, -, hlast⟩ := List.pairwise_append.mp htimes
    obtain ⟨hnone, hsome⟩ := ih (fun u hu => hfair u (List.mem_append_left _ hu)) hts
    have ht := hfair t (List.mem_append_right _ List.mem_cons_self)
    rw [List.foldl_append, List.foldl_cons, List.foldl_nil, List.filter_append]
    generalize ts.foldl (Trade.next maxHistory key) none = bucket at hnone hsome
    rw [Trade.next]
    by_cases hcut : t.isOf key ∧ key.openTime < cutoff maxHistory key.seconds t.now
    · rw [if_pos hcut]
      exact ⟨iff_of_true rfl (.inr ⟨t, List.mem_append_right _ List.mem_cons_self, hcut⟩), fun b hb => by cases hb⟩
    · rw [if_neg hcut]
      by_cases hin : t.isIn key
      · have hof : t.isOf key := (of_decide_eq_true hin).1
        have hnocut : ¬∃ u ∈ ts ++ [t], u.isOf key ∧ key.openTime < cutoff maxHistory key.seconds u.now := by
          rintro ⟨u, hu, -, hold⟩
          refine hcut ⟨hof, hold.trans_le (cutoff_mono ?_)⟩
          rcases List.mem_append.mp hu with hu | hu
          · exact hlast u hu t List.mem_cons_self
          · rw [List.mem_singleton.mp hu]
        have hbefore : ¬∃ u ∈ ts, u.isOf key ∧ key.openTime < cutoff maxHistory key.seconds u.now :=
          fun ⟨u, hu, hold⟩ => hnocut ⟨u, List.mem_append_left _ hu, hold⟩
        rw [or_iff_left hbefore] at hnone
        have hone : [t].filter (·.isIn key) = [t] := by rw [List.filter_singleton, hin, cond_true]
        rw [if_pos hin, hone]
        refine ⟨iff_of_false (Option.some_ne_none _) (not_or.mpr ⟨by simp, hnocut⟩), fun b hb => ?_⟩
        obtain rfl := Option.some.inj hb
        cases bucket with
        | none =>
          rw [hnone.mp rfl, List.nil_append]
          exact .create ht hof
        | some b =>
          refine (hsome b rfl).update (fun u hu => ?_) ht hof
          obtain ⟨hu, huin⟩ := List.mem_filter.mp hu
          exact ⟨hfair u (List.mem_append_left _ hu), (of_decide_eq_true huin).1⟩
      · have hcuts : (∃ u ∈ ts ++ [t], u.isOf key ∧ key.openTime < cutoff maxHistory key.seconds u.now) ↔
            ∃ u ∈ ts, u.isOf key ∧ key.openTime < cutoff maxHistory key.seconds u.now := by
          constructor
          · rintro ⟨u, hu, hold⟩
            rcases List.mem_append.mp hu with hu | hu
            · exact ⟨u, hu, hold⟩
            · exact absurd (List.mem_singleton.mp hu ▸ hold) hcut
          · rintro ⟨u, hu, hold⟩
            exact ⟨u, List.mem_append_left _ hu, hold⟩
        have hnil : [t].filter (·.isIn key) = [] := by rw [List.filter_singleton, Bool.eq_false_of_not_eq_true hin, cond_false]
        rw [if_neg hin, hnil, List.append_nil, hcuts]
        exact ⟨hnone, hsome⟩

theorem ordered_base (p : Price) : (ordered p).base.assetId = min p.base.assetId p.quote.assetId := by
  unfold ordered
  split
  · next hlt => exact (min_eq_right hlt.le).symm
  · next hle => exact (min_eq_left (Nat.le_of_not_lt hle)).symm

theorem ordered_quote (p : Price) : (ordered p).quote.assetId = max p.base.assetId p.quote.assetId := by
  unfold ordered
  split
  · next hlt => exact (max_eq_left hlt.le).symm
  · next hle => exact (max_eq_right (Nat.le_of_not_lt hle)).symm

theorem FillOrder.trade_now {op : FillOrder} (ht : op.trade now = some t) : t.now = now := by
  unfold FillOrder.trade at ht
  split at ht
  · obtain rfl := Option.some.inj ht
    rfl
  · cases ht

theorem FillOrder.Fair.trade {op : FillOrder} (h : op.Fair) (ht : op.trade now = some t) : t.Fair := by
  unfold FillOrder.trade at ht
  split at ht
  · obtain rfl := Option.some.inj ht
    have hvalid : (ordered op.fillPrice).Valid := by
      unfold ordered
      split
      · exact h.valid.inv
      · exact h.valid
    refine ⟨hvalid, ?_, ?_, ?_, ?_⟩
    · dsimp only
      rw [ordered_base, ordered_base]
      rcases h.market with ⟨hbase, hquote⟩ | ⟨hbase, hquote⟩
      · rw [hbase, hquote]
      · rw [hbase, hquote, min_comm]
    · dsimp only
      rw [ordered_quote, ordered_quote]
      rcases h.market with ⟨hbase, hquote⟩ | ⟨hbase, hquote⟩
      · rw [hbase, hquote]
      · rw [hbase, hquote, max_comm]
    · unfold ordered
      split
      · exact h.receives
      · exact h.pays
    · unfold ordered
      split
      · exact h.pays
      · exact h.receives
  · cases ht

namespace Sample

def options : Options := ⟨2, [60, 300], by decide, by decide, 1, 125⟩

/-- Two trades in a minute, one from either side, and one two minutes later -/
def blocks : List (Nat × List FillOrder) :=
  [(65, [⟨⟨10, 1⟩, ⟨20, 2⟩, ⟨⟨1, 1⟩, ⟨2, 2⟩⟩, true⟩, ⟨⟨20, 2⟩, ⟨10, 1⟩, ⟨⟨1, 1⟩, ⟨2, 2⟩⟩, false⟩]),
    (70, [⟨⟨30, 2⟩, ⟨10, 1⟩, ⟨⟨3, 2⟩, ⟨1, 1⟩⟩, true⟩]),
    (190, [⟨⟨10, 1⟩, ⟨10, 2⟩, ⟨⟨1, 1⟩, ⟨1, 2⟩⟩, true⟩])]

end Sample

variable {blocks : List (Nat × List FillOrder)}

theorem trades_fair (h : ∀ block ∈ blocks, ∀ op ∈ block.2, op.Fair) : ∀ t ∈ trades blocks, t.Fair := by
  intro t ht
  obtain ⟨block, hblock, ht⟩ := List.mem_flatMap.mp ht
  obtain ⟨op, hop, htrade⟩ := List.mem_filterMap.mp ht
  exact (h block hblock op hop).trade htrade

/-- What comes from blocks in turn, at their times, is in the order of the times. -/
theorem flatMap_pairwise {α : Type} {time : α → Nat} {f : Nat × List FillOrder → List α} (hf : ∀ block, ∀ x ∈ f block, time x = block.1)
    (h : blocks.Pairwise fun x y => x.1 ≤ y.1) : (blocks.flatMap f).Pairwise fun x y => time x ≤ time y := by
  refine List.pairwise_flatMap.mpr ⟨fun block _ => List.pairwise_of_forall_mem_list fun x hx y hy => ?_, h.imp fun {b c} hle x hx y hy => ?_⟩
  · rw [hf block x hx, hf block y hy]
  · rw [hf b x hx, hf c y hy]
    exact hle

theorem trades_pairwise (h : blocks.Pairwise fun x y => x.1 ≤ y.1) : (trades blocks).Pairwise fun t u => t.now ≤ u.now := by
  refine flatMap_pairwise (fun block t ht => ?_) h
  obtain ⟨op, -, htrade⟩ := List.mem_filterMap.mp ht
  exact FillOrder.trade_now htrade

/-- After any blocks there is a bucket for each tracked size and each market where trades fell into it, as long as no later trade of the
    market has found it too old. It has their first, last, greatest and least prices and their volumes. -/
theorem buckets_summarize (hmax : o.maxHistory ≠ 0) (hs : key.seconds ∈ o.trackedBuckets)
    (hfair : ∀ block ∈ blocks, ∀ op ∈ block.2, op.Fair) (htimes : blocks.Pairwise fun x y => x.1 ≤ y.1) :
    (blocks.foldl (updateMarketHistories o) (fun _ => none) key = none ↔ (trades blocks).filter (·.isIn key) = [] ∨
      ∃ t ∈ trades blocks, t.isOf key ∧ key.openTime < cutoff o.maxHistory key.seconds t.now) ∧
    ∀ b ∈ blocks.foldl (updateMarketHistories o) (fun _ => none) key, Summarizes key ((trades blocks).filter (·.isIn key)) b := by
  rw [foldl_updateMarketHistories hmax hs]
  exact foldl_next (trades_fair hfair) (trades_pairwise htimes)

theorem buckets_summarize_sample : ∃ b, Sample.blocks.foldl (updateMarketHistories Sample.options) (fun _ => none) ⟨1, 2, 60, 60⟩ = some b ∧
    Summarizes ⟨1, 2, 60, 60⟩ ((trades Sample.blocks).filter (·.isIn ⟨1, 2, 60, 60⟩)) b := by
  have h := @buckets_summarize Sample.options ⟨1, 2, 60, 60⟩ Sample.blocks (by decide) (by decide) (by decide) (by decide)
  have hsome : (Sample.blocks.foldl (updateMarketHistories Sample.options) (fun _ => none) ⟨1, 2, 60, 60⟩).isSome := by decide
  obtain ⟨b, hb⟩ := Option.isSome_iff_exists.mp hsome
  exact ⟨b, hb, h.2 b hb⟩

/-! ### Filled orders -/

/-- `order_history_object`, but for the assets of its key -/
structure OrderHistory where
  sequence : Int
  time : Nat
  op : FillOrder

/-- The records of each market in the order of the index `by_key` -/
abbrev HistoryIndex := AssetId × AssetId → List OrderHistory

/-- The records of a market in the order of the index `by_market_time` -/
def byMarketTime (records : List OrderHistory) : List OrderHistory :=
  records.mergeSort fun x y => y.time < x.time ∨ x.time = y.time ∧ x.sequence ≤ y.sequence

/-- The records from the one of the two that is older on are removed. -/
def removeOld (o : Options) (now : Nat) (sequence : Int) (records : List OrderHistory) : List OrderHistory :=
  match records.find? (sequence + o.maxOrderHisRecords ≤ ·.sequence), (byMarketTime records).find? (·.time ≤ now - o.maxOrderHisSeconds) with
  | some r, some old =>
    if old.sequence ≤ r.sequence then records.filter (·.sequence < r.sequence)
    else records.filter fun x => ¬(x.time < old.time ∨ x.time = old.time ∧ old.sequence ≤ x.sequence)
  | _, _ => records

def addOrderHistory (o : Options) (records : List OrderHistory) (fill : Nat × FillOrder) : List OrderHistory :=
  let sequence := records.head?.elim 0 (·.sequence - 1)
  removeOld o fill.1 sequence (⟨sequence, fill.1, fill.2⟩ :: records)

/-- A pair of assets with the lesser one first -/
def market (a b : AssetId) : AssetId × AssetId := if b < a then (b, a) else (a, b)

def FillOrder.isOf (m : AssetId × AssetId) (op : FillOrder) : Bool := market op.pays.assetId op.receives.assetId = m

/-- `operation_process_fill_order`, as far as the filled orders are concerned -/
def saveFillOrder (o : Options) (now : Nat) (index : HistoryIndex) (op : FillOrder) : HistoryIndex :=
  Function.update index (market op.pays.assetId op.receives.assetId) <|
    addOrderHistory o (index (market op.pays.assetId op.receives.assetId)) (now, op)

/-- `update_market_histories`, as far as the filled orders are concerned -/
def updateOrderHistories (o : Options) (index : HistoryIndex) (block : Nat × List FillOrder) : HistoryIndex :=
  block.2.foldl (saveFillOrder o block.1) index

/-- `get_fill_order_history` -/
def getFillOrderHistory (index : HistoryIndex) (a b : AssetId) (limit : Nat) : List OrderHistory :=
  (index (market a b)).take limit

/-- The orders of a market that were filled, with their times -/
def fills (m : AssetId × AssetId) (blocks : List (Nat × List FillOrder)) : List (Nat × FillOrder) :=
  blocks.flatMap fun block => (block.2.filter (FillOrder.isOf m)).map (block.1, ·)

/-- The first ones of a list, and of the others those with the property -/
def kept {α : Type} (most : Nat) (p : α → Bool) (l : List α) : List α := l.take most ++ (l.drop most).filter p

/-- The sequence numbers go up by one, and the times go down. -/
def Aligned : Int → List OrderHistory → Prop
  | _, [] => True
  | first, r :: records => r.sequence = first ∧ (∀ x ∈ records, x.time ≤ r.time) ∧ Aligned (first + 1) records

section Kept

variable {α β : Type} {p q : α → Bool} {most : Nat} {l : List α} {x : α}

theorem kept_nil : kept most p [] = [] := by simp [kept]

theorem kept_succ : kept (most + 1) p (x :: l) = x :: kept most p l := by simp [kept]

theorem kept_zero : kept 0 p l = l.filter p := by simp [kept]

theorem map_kept (f : α → β) (r : β → Bool) (most : Nat) (l : List α) : (kept most (fun x => r (f x)) l).map f = kept most r (l.map f) := by
  rw [kept, kept, List.map_append, List.map_take, ← List.map_drop, List.filter_map]
  rfl

theorem kept_filter (h : ∀ x, p x → q x) : (l.filter q).filter p = l.filter p := by
  rw [List.filter_filter]
  exact List.filter_congr fun x _ => Bool.and_eq_left_iff_imp.mpr (h x)

/-- What was dropped before would be dropped now. -/
theorem kept_kept (h : ∀ x, p x → q x) : kept most p (kept (most + 1) q l) = kept most p l := by
  induction l generalizing most with
  | nil => rw [kept_nil]
  | cons x l ih =>
    rw [kept_succ]
    cases most with
    | zero => rw [kept_zero, kept_zero, kept_zero, List.filter_cons, List.filter_cons, kept_filter h]
    | succ most => rw [kept_succ, kept_succ, ih]

theorem kept_cons_kept (h : ∀ x, p x → q x) : kept most p (x :: kept most q l) = kept most p (x :: l) := by
  cases most with
  | zero => rw [kept_zero, kept_zero, kept_zero, List.filter_cons, List.filter_cons, kept_filter h]
  | succ most => rw [kept_succ, kept_succ, kept_kept h]

end Kept

namespace Aligned

variable {first : Int} {records : List OrderHistory} {r : OrderHistory} {p : OrderHistory → Bool}

theorem le (h : Aligned first records) : ∀ x ∈ records, first ≤ x.sequence := by
  induction records generalizing first with
  | nil => exact fun x hx => absurd hx List.not_mem_nil
  | cons r records ih =>
    obtain ⟨hr, -, hrest⟩ := h
    intro x hx
    rcases List.mem_cons.mp hx with rfl | hx
    · exact hr.ge
    · have hle := ih hrest x hx
      omega

theorem pairwise (h : Aligned first records) : records.Pairwise fun x y => x.sequence < y.sequence ∧ y.time ≤ x.time := by
  induction records generalizing first with
  | nil => exact .nil
  | cons r records ih =>
    obtain ⟨hr, htimes, hrest⟩ := h
    refine List.pairwise_cons.mpr ⟨fun x hx => ⟨?_, htimes x hx⟩, ih hrest⟩
    have hle := hrest.le x hx
    omega

/-- Of the records a property has that passes to the later ones, the numbers go up by one as well. -/
theorem filter (h : Aligned first records) (hp : ∀ x ∈ records, ∀ y ∈ records, x.sequence ≤ y.sequence → p y → p x) :
    Aligned first (records.filter p) := by
  induction records generalizing first with
  | nil => trivial
  | cons r records ih =>
    have hle := h.le
    obtain ⟨hr, htimes, hrest⟩ := h
    by_cases hpr : p r
    · rw [List.filter_cons_of_pos hpr]
      refine ⟨hr, fun x hx => htimes x (List.mem_filter.mp hx).1, ih hrest fun x hx y hy => ?_⟩
      exact hp x (List.mem_cons_of_mem _ hx) y (List.mem_cons_of_mem _ hy)
    · have hnil : (r :: records).filter p = [] := by
        refine List.filter_eq_nil_iff.mpr fun y hy hpy => hpr (hp r List.mem_cons_self y hy ?_ hpy)
        exact hr.le.trans (hle y hy)
      rw [hnil]
      trivial

theorem filter_eq_kept (h : Aligned first records) {most : Nat} :
    records.filter (fun x => decide (x.sequence < first + most) || p x) = kept most p records := by
  induction records generalizing first most with
  | nil => rw [kept_nil]; rfl
  | cons r records ih =>
    cases most with
    | zero =>
      rw [kept_zero]
      refine List.filter_congr fun x hx => ?_
      have hle := h.le x hx
      rw [decide_eq_false (by omega), Bool.false_or]
    | succ most =>
      obtain ⟨hr, -, hrest⟩ := h
      rw [kept_succ, List.filter_cons_of_pos (by rw [decide_eq_true (by omega), Bool.true_or]), ← ih hrest]
      have hsum : first + 1 + (most : Int) = first + (most + 1 : Nat) := by omega
      rw [hsum]

theorem byMarketTime_eq (h : Aligned first records) : byMarketTime records = records := by
  refine List.mergeSort_of_pairwise (h.pairwise.imp fun {x y} hxy => decide_eq_true ?_)
  omega

/-- The first record with a property comes before all others with it. -/
theorem find?_le (h : Aligned first records) (hr : records.find? p = some r) :
    r ∈ records ∧ p r ∧ ∀ x ∈ records, p x → r.sequence ≤ x.sequence := by
  obtain ⟨hpr, before, after, hrecords, hbefore⟩ := List.find?_eq_some_iff_append.mp hr
  have hpairwise := h.pairwise
  rw [hrecords] at hpairwise ⊢
  refine ⟨List.mem_append_right _ List.mem_cons_self, hpr, fun x hx hpx => ?_⟩
  rcases List.mem_append.mp hx with hx | hx
  · have hnot := hbefore x hx
    rw [hpx] at hnot
    cases hnot
  · rcases List.mem_cons.mp hx with rfl | hx
    · exact le_rfl
    · exact ((List.pairwise_cons.mp (List.pairwise_append.mp hpairwise).2.1).1 x hx).1.le

theorem time_le (h : Aligned first records) {x y : OrderHistory} (hx : x ∈ records) (hy : y ∈ records) (hle : x.sequence ≤ y.sequence) :
    y.time ≤ x.time := by
  have hforward : records.Pairwise fun x y => x.sequence ≤ y.sequence → y.time ≤ x.time := h.pairwise.imp fun hxy _ => hxy.2
  have hback : records.Pairwise (flip fun x y => x.sequence ≤ y.sequence → y.time ≤ x.time) :=
    h.pairwise.imp fun hxy hle => absurd hle hxy.1.not_ge
  exact List.Pairwise.forall_of_forall_of_flip (fun x _ _ => le_rfl) hforward hback hx hy hle

end Aligned

/-- The record is not too old. -/
def OrderHistory.isRecent (o : Options) (now : Nat) (r : OrderHistory) : Bool := now - o.maxOrderHisSeconds < r.time

variable {first : Int} {records : List OrderHistory} {fill : Nat × FillOrder} {fs : List (Nat × FillOrder)} {m : AssetId × AssetId}

/-- The records that stay are among the first ones or not too old. -/
theorem removeOld_eq_filter (h : Aligned first records) : removeOld o now first records =
    records.filter fun x => decide (x.sequence < first + o.maxOrderHisRecords) || x.isRecent o now := by
  have hall : (∀ x ∈ records, x.sequence < first + o.maxOrderHisRecords ∨ now - o.maxOrderHisSeconds < x.time) →
      records = records.filter fun x => decide (x.sequence < first + o.maxOrderHisRecords) || x.isRecent o now := by
    intro hx
    refine (List.filter_eq_self.mpr fun x hmem => ?_).symm
    simpa [OrderHistory.isRecent] using hx x hmem
  unfold removeOld
  rw [h.byMarketTime_eq]
  split
  · next r old hr hold =>
    obtain ⟨-, hrseq, hrfirst⟩ := h.find?_le hr
    obtain ⟨holdmem, holdtime, holdfirst⟩ := h.find?_le hold
    have hseq : ∀ x ∈ records, first + o.maxOrderHisRecords ≤ x.sequence ↔ r.sequence ≤ x.sequence := fun x hx =>
      ⟨fun hle => hrfirst x hx (decide_eq_true hle), fun hle => (of_decide_eq_true hrseq).trans hle⟩
    have htime : ∀ x ∈ records, x.time ≤ now - o.maxOrderHisSeconds ↔ old.sequence ≤ x.sequence := fun x hx =>
      ⟨fun hle => holdfirst x hx (decide_eq_true hle), fun hle => (h.time_le holdmem hx hle).trans (of_decide_eq_true holdtime)⟩
    split
    · refine List.filter_congr fun x hx => ?_
      have h₁ := hseq x hx
      have h₂ := htime x hx
      simp only [OrderHistory.isRecent, ← Bool.decide_or, decide_eq_decide]
      omega
    · refine List.filter_congr fun x hx => ?_
      have h₁ := hseq x hx
      have h₂ := htime x hx
      have hback := h.time_le hx holdmem
      have hforth := h.time_le holdmem hx
      simp only [OrderHistory.isRecent, ← Bool.decide_or, decide_eq_decide]
      omega
  · next hnot =>
    refine hall fun x hx => ?_
    by_contra hdropped
    obtain ⟨hseq, htime⟩ := not_or.mp hdropped
    have hfind : ∀ p : OrderHistory → Bool, p x → ∃ r, records.find? p = some r := fun p hp =>
      Option.isSome_iff_exists.mp (List.find?_isSome.mpr ⟨x, hx, hp⟩)
    obtain ⟨r, hr⟩ := hfind (first + o.maxOrderHisRecords ≤ ·.sequence) (decide_eq_true (not_lt.mp hseq))
    obtain ⟨old, hold⟩ := hfind (·.time ≤ now - o.maxOrderHisSeconds) (decide_eq_true (not_lt.mp htime))
    exact hnot r old hr hold

/-- A filled order comes first among the records of its market, and what is neither one of the first ones nor recent goes. -/
theorem addOrderHistory_spec (h : Aligned first records) (hnow : ∀ x ∈ records, x.time ≤ fill.1) :
    (∃ first, Aligned first (addOrderHistory o records fill)) ∧ ∃ sequence, addOrderHistory o records fill =
      kept o.maxOrderHisRecords (·.isRecent o fill.1) (⟨sequence, fill.1, fill.2⟩ :: records) := by
  unfold addOrderHistory
  dsimp only
  generalize hsequence : records.head?.elim 0 (·.sequence - 1) = sequence
  have haligned : Aligned sequence (⟨sequence, fill.1, fill.2⟩ :: records) := by
    refine ⟨rfl, hnow, ?_⟩
    cases records with
    | nil => trivial
    | cons r records =>
      have hr : r.sequence = sequence + 1 := by
        rw [← hsequence]
        exact (Int.sub_add_cancel _ _).symm
      exact ⟨hr, h.2.1, by rw [← hr, h.1]; exact h.2.2⟩
  rw [removeOld_eq_filter haligned]
  refine ⟨⟨sequence, haligned.filter fun x hx y hy hle hy' => ?_⟩, sequence, haligned.filter_eq_kept⟩
  have htime := haligned.time_le hx hy hle
  simp only [OrderHistory.isRecent, ← Bool.decide_or, decide_eq_true_eq] at hy' ⊢
  omega

/-- The last time at which an order was filled -/
def lastTime (fs : List (Nat × FillOrder)) : Nat := fs.getLast?.elim 0 (·.1)

theorem foldl_addOrderHistory (h : fs.Pairwise fun f g => f.1 ≤ g.1) : (∃ first, Aligned first (fs.foldl (addOrderHistory o) [])) ∧
    (fs.foldl (addOrderHistory o) []).map (fun r => (r.time, r.op)) =
      kept o.maxOrderHisRecords (fun f => decide (lastTime fs - o.maxOrderHisSeconds < f.1)) fs.reverse := by
  induction fs using List.reverseRecOn with
  | nil => exact ⟨⟨0, trivial⟩, kept_nil.symm⟩
  | append_singleton fs f ih =>
    obtain ⟨hfs, -, hlast⟩ := List.pairwise_append.mp h
    obtain ⟨⟨first, haligned⟩, hmap⟩ := ih hfs
    rw [List.foldl_append, List.foldl_cons, List.foldl_nil]
    generalize fs.foldl (addOrderHistory o) [] = records at haligned hmap
    have hnow : ∀ x ∈ records, x.time ≤ f.1 := by
      intro x hx
      have hmem : (x.time, x.op) ∈ kept o.maxOrderHisRecords (fun f => decide (lastTime fs - o.maxOrderHisSeconds < f.1)) fs.reverse :=
        hmap ▸ List.mem_map.mpr ⟨x, hx, rfl⟩
      have hsub : (x.time, x.op) ∈ fs := by
        rcases List.mem_append.mp hmem with hmem | hmem
        · exact List.mem_reverse.mp (List.mem_of_mem_take hmem)
        · exact List.mem_reverse.mp (List.mem_of_mem_drop (List.mem_filter.mp hmem).1)
      exact hlast _ hsub f List.mem_cons_self
    obtain ⟨hnext, sequence, hadd⟩ := addOrderHistory_spec (o := o) haligned hnow
    refine ⟨hnext, ?_⟩
    have hle : lastTime fs ≤ f.1 := by
      unfold lastTime
      cases hl : fs.getLast? with
      | none => exact Nat.zero_le _
      | some g => exact hlast g (List.mem_of_getLast? hl) f List.mem_cons_self
    have htime : lastTime (fs ++ [f]) = f.1 := by rw [lastTime, List.getLast?_concat]; rfl
    have hkept := map_kept (fun r : OrderHistory => (r.time, r.op)) (fun g => decide (f.1 - o.maxOrderHisSeconds < g.1))
      o.maxOrderHisRecords (⟨sequence, f.1, f.2⟩ :: records)
    rw [hadd, htime, List.reverse_concat]
    refine hkept.trans ?_
    rw [List.map_cons, hmap]
    exact kept_cons_kept fun g hg => decide_eq_true (by have hlt := of_decide_eq_true hg; omega)

/-- The records of each market are those that its filled orders make one after the other. -/
theorem foldl_updateOrderHistories (index : HistoryIndex) (blocks : List (Nat × List FillOrder)) :
    blocks.foldl (updateOrderHistories o) index m = (fills m blocks).foldl (addOrderHistory o) (index m) := by
  have hblock : ∀ (now : Nat) (ops : List FillOrder) (index : HistoryIndex), ops.foldl (saveFillOrder o now) index m =
      ((ops.filter (FillOrder.isOf m)).map (now, ·)).foldl (addOrderHistory o) (index m) := by
    intro now ops
    induction ops with
    | nil => exact fun _ => rfl
    | cons op ops ih =>
      intro index
      rw [List.foldl_cons, ih, saveFillOrder]
      by_cases hm : market op.pays.assetId op.receives.assetId = m
      · have hof : op.isOf m := decide_eq_true hm
        rw [List.filter_cons_of_pos hof, List.map_cons, List.foldl_cons, hm, Function.update_self]
      · have hnot : ¬op.isOf m := fun h => hm (of_decide_eq_true h)
        rw [List.filter_cons_of_neg hnot, Function.update_of_ne (Ne.symm hm)]
  rw [fills, List.foldl_flatMap]
  exact (List.foldl_hom (fun index : HistoryIndex => index m) fun index block => (hblock block.1 block.2 index).symm).symm

theorem fills_pairwise (h : blocks.Pairwise fun x y => x.1 ≤ y.1) : (fills m blocks).Pairwise fun f g => f.1 ≤ g.1 := by
  refine flatMap_pairwise (fun block f hf => ?_) h
  obtain ⟨op, -, rfl⟩ := List.mem_map.mp hf
  rfl

/-- After any blocks the history of a market has the last filled orders, newest first: as many as the plugin is to keep at least, and of
    those before all that were not too old when the last one came. -/
theorem fill_order_history (htimes : blocks.Pairwise fun x y => x.1 ≤ y.1) (a b : AssetId) (limit : Nat) :
    (getFillOrderHistory (blocks.foldl (updateOrderHistories o) fun _ => []) a b limit).map (fun r => (r.time, r.op)) =
      (kept o.maxOrderHisRecords (fun f => decide (lastTime (fills (market a b) blocks) - o.maxOrderHisSeconds < f.1))
        (fills (market a b) blocks).reverse).take limit := by
  have hkept := (foldl_addOrderHistory (o := o) (fills_pairwise (m := market a b) htimes)).2
  rw [getFillOrderHistory, List.map_take, foldl_updateOrderHistories, hkept]

theorem fill_order_history_sample : (getFillOrderHistory (Sample.blocks.foldl (updateOrderHistories Sample.options) fun _ => []) 2 1 5).map
    (fun r => (r.time, r.op.isMaker)) = [(190, true), (70, true)] := by
  have h := @fill_order_history Sample.options Sample.blocks (by decide) 2 1 5
  have hmap := congrArg (List.map fun f : Nat × FillOrder => (f.1, f.2.isMaker)) h
  rw [List.map_map] at hmap
  exact hmap.trans (by decide)

end Khc.MarketHistory
