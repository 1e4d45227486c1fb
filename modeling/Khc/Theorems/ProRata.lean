import Khc.Chain.Issue
import Khc.Project.Run
import Mathlib.Algebra.Order.BigOperators.Group.List

/-! How the tokens of an issue are split among the investments. -/

namespace Khc.Chain

open Lib Database

namespace IssueAssetToInvestors
variable {d : Database} {o : IssueAssetToInvestorsOperation} {e : Evaluated} {records : List Khc.Chain.AssetInvestment}
  {a : AssetObject} {total raised n : Int} {t : Totals} {amounts : List Int}

/-- `total_issue * investment / total_raised`, rounded down -/
def share (total raised : Int) (r : Khc.Chain.AssetInvestment) : Int := total * r.investmentKhdAmount.amount / raised

/-- Positive investments that come to what is raised -/
structure Raises (records : List Khc.Chain.AssetInvestment) (raised : Int) : Prop where
  invested : records ≠ []
  positive : ∀ r ∈ records, 0 < r.investmentKhdAmount.amount
  sum : (records.map (·.investmentKhdAmount.amount)).sum = raised
  range : raised ≤ maxInt64

/-- Every investment has the floor of its share, and the last one what is left over besides. -/
structure Split (records : List Khc.Chain.AssetInvestment) (raised total : Int) (amounts : List Int) : Prop where
  length : amounts.length = records.length
  sum : amounts.sum = total
  atLeast : List.Forall₂ (fun r n => share total raised r ≤ n) records amounts
  front : amounts.dropLast = records.dropLast.map (share total raised)
  last : ∀ r ∈ records.getLast?, ∃ left : Int, 0 ≤ left ∧ left < records.length ∧ amounts.getLast? = some (share total raised r + left)

theorem Raises.pos (h : Raises records raised) : 0 < raised := by
  rw [← h.sum]
  refine List.sum_pos _ (fun n hn => ?_) (by simpa using h.invested)
  obtain ⟨r, hr, rfl⟩ := List.mem_map.mp hn
  exact h.positive r hr

/-- The floors leave less than one for each investment. -/
theorem shares_sum (records : List Khc.Chain.AssetInvestment) (total : Int) (hraised : 0 < raised) :
    raised * (records.map (share total raised)).sum ≤ total * (records.map (·.investmentKhdAmount.amount)).sum ∧
      total * (records.map (·.investmentKhdAmount.amount)).sum ≤
        raised * (records.map (share total raised)).sum + records.length * (raised - 1) := by
  induction records with
  | nil => simp
  | cons r records ih =>
    have hfloor := Int.mul_ediv_self_le (x := total * r.investmentKhdAmount.amount) hraised.ne'
    have hrest := Int.emod_lt_of_pos (total * r.investmentKhdAmount.amount) hraised
    have hdiv := Int.mul_ediv_add_emod (total * r.investmentKhdAmount.amount) raised
    rw [List.map_cons, List.sum_cons, List.map_cons, List.sum_cons, List.length_cons, mul_add, mul_add, share]
    push_cast
    constructor
    · linarith [ih.1]
    · have hone : ((records.length : Int) + 1) * (raised - 1) = records.length * (raised - 1) + (raised - 1) := by ring
      linarith [ih.2]

/-- What the loop has noted after the investments -/
theorem shares_of_loop (hpos : ∀ r ∈ records, 0 ≤ r.investmentKhdAmount.amount) (hle : ∀ r ∈ records, r.investmentKhdAmount.amount ≤ raised)
    (hraised : 0 < raised) (hraised' : raised ≤ maxInt64) (htotal : 0 ≤ total) (htotal' : total ≤ maxInt64) {t t' : Totals}
    (h : records.foldlM (addShare d total raised) t = .ok t') :
    t'.issueAmounts = t.issueAmounts ++ records.map (share total raised) ∧
      t'.totalInvestment = t.totalInvestment + (records.map (·.investmentKhdAmount.amount)).sum ∧
      t'.totalIssueTmp = t.totalIssueTmp + (records.map (share total raised)).sum := by
  induction records generalizing t with
  | nil =>
    obtain rfl := Except.ok.inj h
    simp
  | cons r records ih =>
    rw [List.foldlM_cons, bind_eq_ok] at h
    obtain ⟨t₁, h₁, h⟩ := h
    have hshare := uint128MulDiv_part htotal htotal' (hpos r List.mem_cons_self) (hle r List.mem_cons_self) hraised hraised'
    simp only [addShare, bind_eq_ok, safe_eq_ok, hshare, Except.ok.injEq, pure_eq_ok] at h₁
    obtain ⟨_, _, _, _, _, _, invested, ⟨_, rfl⟩, amount, rfl, issued, ⟨_, rfl⟩, rfl⟩ := h₁
    obtain ⟨hamounts, hinvested, hissued⟩ := ih (fun r hr => hpos r (.tail _ hr)) (fun r hr => hle r (.tail _ hr)) h
    rw [List.map_cons, List.map_cons, List.sum_cons, List.sum_cons]
    refine ⟨?_, ?_, ?_⟩
    · rw [hamounts, List.append_assoc]
      rfl
    · rw [hinvested, add_assoc]
    · rw [hissued, add_assoc]
      rfl

theorem Raises.le (h : Raises records raised) : ∀ r ∈ records, r.investmentKhdAmount.amount ≤ raised := by
  intro r hr
  rw [← h.sum]
  refine List.single_le_sum (fun n hn => ?_) _ (List.mem_map_of_mem hr)
  obtain ⟨r', hr', rfl⟩ := List.mem_map.mp hn
  exact (h.positive r' hr').le

/-- What the floors leave of the total -/
theorem Raises.left (h : Raises records raised) (total : Int) :
    0 ≤ total - (records.map (share total raised)).sum ∧ total - (records.map (share total raised)).sum < records.length := by
  have hraised := h.pos
  obtain ⟨hlow, hhigh⟩ := shares_sum records total hraised
  rw [h.sum] at hlow hhigh
  have hlen : 0 < (records.length : Int) := by exact_mod_cast List.length_pos_iff.mpr h.invested
  generalize (records.map (share total raised)).sum = floors at hlow hhigh ⊢
  constructor
  · have hle : raised * floors ≤ raised * total := by linarith
    linarith [le_of_mul_le_mul_left hle hraised]
  · have hlt : raised * (total - floors) < raised * records.length := by
      calc raised * (total - floors) ≤ records.length * (raised - 1) := by linarith
        _ < raised * records.length := by linarith
    exact lt_of_mul_lt_mul_left hlt hraised.le

theorem Raises.shares_nonneg (h : Raises records raised) (htotal : 0 ≤ total) : ∀ n ∈ records.map (share total raised), 0 ≤ n := by
  intro n hn
  obtain ⟨r, hr, rfl⟩ := List.mem_map.mp hn
  exact Int.ediv_nonneg (mul_nonneg htotal (h.positive r hr).le) h.pos.le

/-- The last amount takes what is left over. -/
theorem split_of_shares (h : Raises records raised) (htotal : 0 ≤ total) (htotal' : total ≤ maxShareSupply) :
    ∃ amounts, addToLast (records.map (share total raised)) (total - (records.map (share total raised)).sum) = .ok amounts ∧
      Split records raised total amounts := by
  have hne := h.invested
  obtain ⟨hleft, hleft'⟩ := h.left total
  have hmap : records.map (share total raised) ≠ [] := by simpa using hne
  have hlast : (records.map (share total raised)).getLast hmap = share total raised (records.getLast hne) := List.getLast_map ..
  have hnonneg := h.shares_nonneg htotal
  have hsum : share total raised (records.getLast hne) ≤ (records.map (share total raised)).sum :=
    List.single_le_sum hnonneg _ (List.mem_map_of_mem (List.getLast_mem hne))
  have hlow := hnonneg _ (List.mem_map_of_mem (List.getLast_mem hne))
  unfold maxShareSupply at htotal'
  have hfront : ((records.map (share total raised)).dropLast).sum + share total raised (records.getLast hne) =
      (records.map (share total raised)).sum := by
    conv_rhs => rw [← List.dropLast_append_getLast hmap, List.sum_append, List.sum_singleton, hlast]
  refine ⟨_, addToLast_ok hmap (by rw [hlast]; exact ⟨by omega, by omega⟩), ?_, ?_, ?_, ?_, ?_⟩
  · rw [List.length_append, List.length_dropLast, List.length_singleton, List.length_map]
    have := List.length_pos_iff.mpr hne
    omega
  · rw [List.sum_append, List.sum_singleton, hlast]
    omega
  · conv in records => rw [← List.dropLast_append_getLast hne]
    rw [← List.map_dropLast]
    refine List.rel_append (List.forall₂_map_right_iff.mpr (List.forall₂_same.mpr fun _ _ => le_rfl)) (.cons ?_ .nil)
    rw [hlast]
    omega
  · rw [List.dropLast_concat, List.map_dropLast]
  · intro r hr
    rw [List.getLast?_eq_some_getLast hne, Option.mem_some_iff] at hr
    refine ⟨_, hleft, hleft', ?_⟩
    rw [List.getLast?_append, List.getLast?_singleton, hlast, hr]
    rfl

/-- The amounts of an accepted issue, where the investments come to what is raised -/
theorem doEvaluate_split (he : doEvaluate d o = .ok e) (ha : d.assets[o.investmentAssetId]? = some a)
    (h : Raises (d.investmentsByAsset o.investmentAssetId) a.dynamicData.financingConfidentialSupply) :
    e.investmentObjects = d.investmentsByAsset o.investmentAssetId ∧
      Split e.investmentObjects a.dynamicData.financingConfidentialSupply e.totalIssue e.issueAmounts := by
  unfold doEvaluate at he
  simp only [bind_eq_ok, getAsset_eq_ok, fcAssert_eq_ok, safe_eq_ok, pure_eq_ok] at he
  obtain ⟨_, _, b, hb, _, _, _, _, _, _, _, _, _, _, khd, _, _, _, _, _, core, _, tokens, htokens, t, hloop, _, _, rest, ⟨_, rfl⟩, amounts,
    hamounts, _, _, supply, _, _, _, rfl⟩ := he
  obtain rfl : a = b := Option.some.inj (ha.symm.trans hb)
  obtain ⟨htotal, htotal'⟩ := Asset.mul_bounds htokens
  obtain ⟨hnoted, -, hissued⟩ := shares_of_loop (fun r hr => (h.positive r hr).le) h.le h.pos h.range htotal (htotal'.trans (by decide)) hloop
  obtain ⟨amounts', hlast, hsplit⟩ := split_of_shares h htotal htotal'
  rw [List.nil_append] at hnoted
  rw [zero_add] at hissued
  rw [hnoted, hissued, hlast] at hamounts
  obtain rfl := Except.ok.inj hamounts
  exact ⟨rfl, hsplit⟩

/-- The split of every total among all investments that come to what is raised: the check of the calculated value holds, and the amounts
    come to the total. An accepted issue is split so among the investments of the asset. -/
theorem issueAmounts_split (h : Raises records raised) (htotal : 0 ≤ total) (htotal' : total ≤ maxShareSupply) :
    ((∀ r ∈ records, Authorised d r) → ∃ t, records.foldlM (addShare d total raised) {} = .ok t) ∧
    (∀ t, records.foldlM (addShare d total raised) {} = .ok t → t.totalInvestment = raised ∧ t.totalIssueTmp ≤ total ∧
      ∃ rest amounts, safe (total - t.totalIssueTmp) = .ok rest ∧ addToLast t.issueAmounts rest = .ok amounts ∧
        Split records raised total amounts) ∧
    ∀ o a e, d.assets[o.investmentAssetId]? = some a → a.dynamicData.financingConfidentialSupply = raised →
      d.investmentsByAsset o.investmentAssetId = records → doEvaluate d o = .ok e →
        e.investmentObjects = records ∧ Split records raised e.totalIssue e.issueAmounts := by
  have hmax : total ≤ maxInt64 := htotal'.trans (by decide)
  refine ⟨fun hauth => ?_, fun t ht => ?_, ?_⟩
  · obtain ⟨t, ht, -⟩ := addShares_ok (t := {}) hauth ⟨le_refl _, by simp, rfl, by simp⟩ htotal hmax h.pos h.range
      (fun r hr => (h.positive r hr).le) (by simpa using h.sum.le)
    exact ⟨t, ht⟩
  · obtain ⟨hamounts, hinvested, hissued⟩ := shares_of_loop (fun r hr => (h.positive r hr).le) h.le h.pos h.range htotal hmax ht
    obtain ⟨amounts, hlast, hsplit⟩ := split_of_shares h htotal htotal'
    obtain ⟨hleft, hleft'⟩ := h.left total
    rw [List.nil_append] at hamounts
    rw [zero_add] at hinvested hissued
    have hissued' : 0 ≤ (records.map (share total raised)).sum := List.sum_nonneg (h.shares_nonneg htotal)
    rw [hamounts, hissued, hinvested, h.sum]
    unfold maxInt64 at hmax
    exact ⟨rfl, by omega, _, amounts, safe_eq_ok.mpr ⟨⟨by omega, by omega⟩, rfl⟩, hlast, hsplit⟩
  · rintro o a e ha rfl rfl he
    obtain ⟨hobjects, hsplit⟩ := doEvaluate_split he ha h
    rw [hobjects] at hsplit
    exact ⟨hobjects, hsplit⟩

end IssueAssetToInvestors

section
open Sample IssueAssetToInvestors

/-- Accounts 2 and 3 have invested 30 and 70. -/
def Sample.invested : Database := genesis.run [create offering, maintain, invest 2 30, invest 3 70]

/-- 101 tokens among investments of 30 and 70 -/
theorem issueAmounts_split_invested : ∃ t, (invested.investmentsByAsset 2).foldlM (addShare invested 101 100) {} = .ok t ∧
    t.totalInvestment = 100 ∧ ∃ rest amounts, addToLast t.issueAmounts rest = .ok amounts ∧
      Split (invested.investmentsByAsset 2) 100 101 amounts := by
  have hraises : Raises (invested.investmentsByAsset 2) 100 := ⟨by decide +kernel, by decide +kernel, by decide +kernel, by decide⟩
  have hloop : (fun _ => ()) <$> (invested.investmentsByAsset 2).foldlM (addShare invested 101 100) {} = .ok () := by decide +kernel
  obtain ⟨-, hsplit, -⟩ := issueAmounts_split hraises (by decide : (0 : Int) ≤ 101) (by decide)
  cases ht : (invested.investmentsByAsset 2).foldlM (addShare invested 101 100) {} with
  | error err =>
    rw [ht] at hloop
    cases hloop
  | ok t =>
    obtain ⟨hinvested, -, rest, amounts, -, hlast, h⟩ := hsplit t ht
    exact ⟨t, rfl, hinvested, rest, amounts, hlast, h⟩

end

end Khc.Chain
