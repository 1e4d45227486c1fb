import Khc.Auth.Required

/-! Authorities of keys and accounts: the check of the required authorities is right if and only if no total of them can wrap below
    its threshold. -/

namespace Khc.Auth

open Lib SignState Authority

variable {K A : Type} [LinearOrder K] [LinearOrder A]

/-- An authority was found missing. -/
def Error.Missing : Error K A → Prop
  | .txMissingOtherAuth _ | .txMissingActiveAuth _ _ _ | .txMissingOwnerAuth _ _ => True
  | _ => False

namespace Verification
variable [AddressHash K A] {v : Verification K A} {s s' : SignState K A} {auth : Authority K A} {id : AccountId} {e : Error K A}

/-- The check passes only what is derivable, and does not miss what is derivable within the recursion limit. -/
structure Right (v : Verification K A) : Prop where
  sound : v.verifyAuthority = .ok () → v.Authorised v.consent.Derivable
  complete : v.Authorised (v.consent.DerivableWithin v.maxRecursionDepth) → ∀ e, v.verifyAuthority = .error e → ¬e.Missing

theorem not_missing_of_authorised (hplain : ∀ auth, v.Mentions auth → auth.Plain ∧ auth.Steady)
    (h : v.Authorised (v.consent.DerivableWithin v.maxRecursionDepth)) (he : v.verifyAuthority = .error e) :
    ¬e.Missing := by
  obtain ⟨s, -, hverify⟩ := verifyAuthority_of_authorised hplain h
  rw [hverify, bind_eq_error] at he
  rcases he with he | ⟨_, -, he⟩
  · obtain ⟨-, rfl⟩ := ensure_eq_error.mp he
    exact id
  · obtain ⟨-, rfl⟩ := ensure_eq_error.mp he
    exact id

/-! ### Totals that wrap -/

open Classical in
/-- A transaction that requires one authority, with the signatures and approvals of the members that are picked, when no account
    can be asked for its own authority -/
noncomputable def picked (au : Authority K A) (q : Member K A × Weight → Prop) : Verification K A where
  ops := [{ active := [], owner := [], other := [au] }]
  sigs := .ofList ((au.keyAuths.entries.filter fun e => q (.key e.1, e.2)).map Prod.fst)
  getActive _ := some au
  getOwner _ := some au
  maxRecursionDepth := 0
  allowCommitte := true
  activeAprovals := .ofList ((au.accountAuths.entries.filter fun e => q (.account e.1, e.2)).map Prod.fst)
  ownerApprovals := .ofList []

section
variable {q : Member K A × Weight → Prop}

omit [AddressHash K A] in
theorem picked_other : (picked auth q).other = [auth] := rfl

omit [AddressHash K A] in
theorem of_mentions_picked {au : Authority K A} (h : (picked auth q).Mentions au) : au = auth := by
  rcases h with h | ⟨_, h⟩ | ⟨_, h⟩
  · exact List.mem_singleton.mp h
  · exact (Option.some.inj h).symm
  · exact (Option.some.inj h).symm

omit [AddressHash K A] in
open Classical in
theorem mem_sigs_picked {e : K × Weight} (he : e ∈ auth.keyAuths.entries) : e.1 ∈ (picked auth q).sigs ↔ q (.key e.1, e.2) := by
  rw [picked, FlatSet.mem_ofList, FlatMap.mem_map_filter he, decide_eq_true_iff]

omit [AddressHash K A] in
open Classical in
theorem approved_picked (htemp : ∀ e, Temp e → q e) {e : AccountId × Weight} (he : e ∈ auth.accountAuths.entries) :
    (picked auth q).Approved e.1 ↔ q (.account e.1, e.2) := by
  have hactive : e.1 ∈ (picked auth q).activeAprovals ↔ q (.account e.1, e.2) := by
    rw [picked, FlatSet.mem_ofList, FlatMap.mem_map_filter he, decide_eq_true_iff]
  constructor
  · rintro (hx | hx | hx)
    · exact htemp _ (congrArg Member.account hx)
    · exact hactive.mp hx
    · exact absurd (FlatSet.mem_ofList.mp hx) List.not_mem_nil
  · exact fun hq => .inr (.inl (hactive.mpr hq))

/-- What is picked is what the test of a member passes. -/
theorem signedBy_picked (hplain : auth.Plain) (htemp : ∀ e, Temp e → q e) {e : Member K A × Weight} (he : e ∈ auth.members)
    (hs : (picked auth q).Untouched s) : ∃ yes s',
      signedBy (picked auth q).context (deeperOf (picked auth q).context 0) e.1 s = .ok (yes, s') ∧
        (picked auth q).Untouched s' ∧ (yes = true ↔ q e) := by
  rcases hplain.mem_members he with ⟨e, hmem, rfl⟩ | ⟨e, hmem, rfl⟩
  · have hq : e.1 ∈ (picked auth q).sigs ↔ q (.key e.1, e.2) := mem_sigs_picked hmem
    rcases hs.1.signedByKey (k := e.1) with ⟨hk, heq⟩ | ⟨hk, heq⟩
    · exact ⟨true, _, congrArg Except.ok heq, ⟨hs.1.mark hk, hs.2⟩, ⟨fun _ => hq.mp hk, fun _ => rfl⟩⟩
    · exact ⟨false, _, congrArg Except.ok heq, hs, ⟨fun h => absurd h Bool.false_ne_true, fun h => absurd (hq.mpr h) hk⟩⟩
  · have hq : e.1 ∈ s.approvedBy ↔ q (.account e.1, e.2) := (hs.2 e.1).trans (approved_picked htemp hmem)
    show ∃ yes s', approvedByAccount (picked auth q).context (deeperOf (picked auth q).context 0) e.1 s = .ok (yes, s') ∧ _
    by_cases hx : e.1 ∈ s.approvedBy
    · exact ⟨true, s, approvedByAccount_of_mem hx, hs, ⟨fun _ => hq.mp hx, fun _ => rfl⟩⟩
    · exact ⟨false, s, approvedByAccount_zero hx, hs, ⟨fun h => absurd h Bool.false_ne_true, fun h => absurd (hq.mpr h) hx⟩⟩

/-- The picked members are derivable without going deeper. -/
theorem authorised_picked (hplain : auth.Plain) (htemp : ∀ e, Temp e → q e)
    (hreached : auth.weightThreshold.toNat ≤ weightSum weightOf q auth.members) :
    (picked auth q).Authorised ((picked auth q).consent.DerivableWithin 0) where
  other au hau := by
    have heq : au = auth := List.mem_singleton.mp hau
    subst heq
    refine hreached.trans (weightSum_mono fun e he hq => ?_)
    rcases hplain.mem_members he with ⟨e, hmem, rfl⟩ | ⟨e, hmem, rfl⟩
    · exact (mem_sigs_picked hmem).mpr hq
    · exact (approved_picked htemp hmem).mpr hq
  active id hid := absurd (FlatSet.mem_ofList.mp hid) List.not_mem_nil
  owner id hid := absurd (FlatSet.mem_ofList.mp hid) List.not_mem_nil

/-- When a total can wrap, there are members that reach the threshold and are found not to. -/
theorem exists_missed (hplain : auth.Plain) (hsteady : ¬auth.Steady) : ∃ q, ¬(picked auth q).Right := by
  have hsmall : ∀ e ∈ auth.members, 2 * weightOf e + weightSum weightOf Temp auth.members ≤ 2 ^ 32 := by
    intro e _
    have hlt := weightOf_lt e
    have hlt' : weightSum weightOf Temp auth.members < 2 ^ 16 := weightSum_account_lt (fun _ h => h) nodup_fst_members
    omega
  obtain ⟨q, htemp, hreached, hloop⟩ := exists_wrap hsteady nodup_members auth.weightThreshold.toNat_lt.le hsmall
  refine ⟨q, fun hright => ?_⟩
  have hnot := hright.complete (authorised_picked hplain htemp hreached)
  obtain ⟨t, s', hloop, -, ht⟩ := hloop (picked auth q).Untouched
    (fun e => signedBy (picked auth q).context (deeperOf (picked auth q).context 0) e.1) (picked auth q).start
    (fun e he s hs => signedBy_picked hplain htemp he hs) start_untouched
  have hcheck : checkAuthority (picked auth q).context 0 (some auth) (picked auth q).start = .ok (false, s') := by
    rw [checkAuthority_some, addMembers, hloop, ok_bind]
    exact congrArg (fun yes => Except.ok (yes, s')) (decide_eq_false (not_le.mpr ht))
  refine hnot (.txMissingOtherAuth auth) ?_ trivial
  have hdepth : (picked auth q).context.maxRecursion = 0 := rfl
  rw [verifyAuthority, (ensure_eq_ok (u := ())).mpr (.inl rfl), ok_bind, picked_other, List.foldlM_cons, requireOther, hdepth, hcheck]
  rfl

end

/-- Whatever is required, who signs and approves, and how deep is looked: the checks over authorities of keys and accounts pass only
    what is derivable and miss nothing that is derivable within the limit, if and only if no total of these authorities can wrap
    below its threshold. -/
theorem verifyAuthority_right_iff (F : Authority K A → Prop) (hplain : ∀ auth, F auth → auth.Plain) :
    (∀ v : Verification K A, (∀ auth, v.Mentions auth → F auth) → v.Right) ↔ ∀ auth, F auth → auth.Steady := by
  constructor
  · intro hright auth hauth
    by_contra hsteady
    obtain ⟨q, hq⟩ := exists_missed (hplain auth hauth) hsteady
    exact hq (hright (picked auth q) fun au hau => of_mentions_picked hau ▸ hauth)
  · intro hsteady v hv
    exact ⟨authorised_of_verifyAuthority, fun h e he =>
      not_missing_of_authorised (fun auth hauth => ⟨hplain auth (hv auth hauth), hsteady auth (hv auth hauth)⟩) h he⟩

/-! ### Concrete cases -/

/-- An authority of one key -/
def oneKey : Authority Nat Nat where
  weightThreshold := 1
  accountAuths := ∅
  keyAuths := FlatMap.set ∅ 7 1
  addressAuths := ∅

theorem oneKey_plain : oneKey.Plain := rfl

theorem oneKey_steady : oneKey.Steady := steady_of_numAuths (by decide)

/-- An authority that is reached by three quarters of the keys and the account that has one of them -/
def household : Authority Nat Nat where
  weightThreshold := 3
  accountAuths := FlatMap.set ∅ 20 2
  keyAuths := FlatMap.set (FlatMap.set ∅ 7 1) 8 1
  addressAuths := ∅

/-- The transfer of a household, signed by one of its keys -/
def transfer : Verification Nat Nat where
  ops := [{ active := [19], owner := [], other := [] }]
  sigs := .ofList [7]
  getActive x := if x = 19 then some household else some oneKey
  getOwner _ := some household
  maxRecursionDepth := 2
  allowCommitte := false
  activeAprovals := .ofList []
  ownerApprovals := .ofList []

theorem verifyAuthority_right_transfer : transfer.Right ∧ transfer.verifyAuthority.toOption = some () := by
  refine ⟨(verifyAuthority_right_iff (fun auth => auth = household ∨ auth = oneKey) ?_).mpr ?_ transfer ?_, by decide +kernel⟩
  · rintro auth (rfl | rfl)
    · exact rfl
    · exact oneKey_plain
  · rintro auth (rfl | rfl)
    · exact steady_of_numAuths (by decide)
    · exact oneKey_steady
  · rintro auth (h | ⟨x, h⟩ | ⟨x, h⟩)
    · exact absurd h List.not_mem_nil
    · simp only [transfer] at h
      split at h
      · exact .inl (Option.some.inj h).symm
      · exact .inr (Option.some.inj h).symm
    · exact .inl (Option.some.inj h).symm

/-- Accounts of the greatest weight, and before them one of the greatest weight but one -/
def crowdAuths (n : Nat) : FlatMap AccountId Weight where
  entries := (5, 65534) :: (List.range n).map fun i => (i + 6, 65535)
  sorted := by
    refine List.pairwise_cons.mpr ⟨fun e he => ?_, List.pairwise_map.mpr (List.pairwise_lt_range.imp fun h => Nat.add_lt_add_right h 6)⟩
    obtain ⟨i, -, rfl⟩ := List.mem_map.mp he
    exact Nat.lt_add_left i (by decide : 5 < 6)

/-- An authority of 65538 accounts: without the last of them its weights add up to one less than the threshold. -/
def crowd : Authority Nat Nat where
  weightThreshold := 4294967295
  accountAuths := crowdAuths (65536 + 1)
  keyAuths := ∅
  addressAuths := ∅

/-- What the accounts of the crowd own, spent with the one key that all of them have -/
def crowded : Verification Nat Nat where
  ops := [{ active := [], owner := [], other := [crowd] }]
  sigs := .ofList [7]
  getActive _ := some oneKey
  getOwner _ := some oneKey
  maxRecursionDepth := 2
  allowCommitte := false
  activeAprovals := .ofList []
  ownerApprovals := .ofList []

/-- The members of the crowd before its last -/
def crowdFront (n : Nat) : List (Member Nat Nat × Weight) := (crowdAuths n).entries.map fun e => (.account e.1, e.2)

theorem crowdFront_succ (n : Nat) : crowdFront (n + 1) = crowdFront n ++ [(.account (n + 6), 65535)] := by
  simp [crowdFront, crowdAuths, List.range_succ]

theorem crowd_members : crowd.members = crowdFront 65536 ++ [(.account (65536 + 6), 65535)] := crowdFront_succ 65536

theorem weightSum_crowdFront (n : Nat) : weightSum weightOf (fun _ => True) (crowdFront n) = 65534 + n * 65535 := by
  induction n with
  | zero =>
    rw [weightSum_true]
    rfl
  | succ n ih =>
    have hlast : weightOf ((.account (n + 6), 65535) : Member Nat Nat × Weight) = 65535 := rfl
    rw [crowdFront_succ, weightSum_append, ih, weightSum_cons_of_pos trivial, weightSum_nil, hlast]
    omega

theorem oneKey_derivable (n : Nat) : crowded.consent.DerivableWithin n oneKey := by
  have hmembers : oneKey.members = [(.key 7, 1)] := rfl
  have hkey : crowded.consent.granted n (.key 7) := Consent.granted_key.mpr (FlatSet.mem_ofList.mpr List.mem_cons_self)
  rw [Consent.DerivableWithin, Reached, hmembers, weightSum_cons_of_pos (p := fun e : Member Nat Nat × Weight => crowded.consent.granted n e.1) hkey]
  exact Nat.le_add_right 1 _

/-- The test passes every account of the crowd. -/
theorem signedBy_crowd {s : SignState Nat Nat} {e : Member Nat Nat × Weight} (he : e ∈ crowd.members) (hs : crowded.Complete s) :
    ∃ yes s', signedBy crowded.context (deeperOf crowded.context 2) e.1 s = .ok (yes, s') ∧ crowded.Complete s' ∧
      (yes = true ↔ True) := by
  obtain ⟨x, -, rfl⟩ := List.mem_map.mp (show e ∈ crowdFront (65536 + 1) from he)
  show ∃ yes s', approvedByAccount crowded.context (deeperOf crowded.context 2) x.1 s = .ok (yes, s') ∧ _
  by_cases hx : x.1 ∈ s.approvedBy
  · exact ⟨true, s, approvedByAccount_of_mem hx, hs, iff_of_true rfl trivial⟩
  · have hactive : ∀ x auth, crowded.context.getActive x = some auth → auth.Plain ∧ auth.Steady := by
      intro x auth h
      obtain rfl := Option.some.inj h
      exact ⟨oneKey_plain, oneKey_steady⟩
    obtain ⟨yes, s', h, hs', hyes⟩ := checkAuthority_finds (n := 1) hactive (.inl rfl) oneKey_plain oneKey_steady hs
    obtain rfl := hyes (oneKey_derivable 1)
    refine ⟨true, s'.approve x.1, ?_, ⟨hs'.ready.approve, fun y hy => FlatSet.mem_insert.mpr (.inr (hs'.approved y hy))⟩,
      iff_of_true rfl trivial⟩
    rw [approvedByAccount_succ hx, show crowded.context.getActive x.1 = some oneKey from rfl, h]
    rfl

/-- The crowd signs, and it is found that it has not. -/
theorem crowded_missed : (∀ auth, crowded.Mentions auth → auth.Plain) ∧ crowd.isImpossible = false ∧ ¬crowded.Right := by
  have hfront := weightSum_crowdFront 65536
  have hlast : weightOf ((.account (65536 + 6), 65535) : Member Nat Nat × Weight) = 65535 := rfl
  have hthreshold : crowd.weightThreshold.toNat = 4294967295 := rfl
  have hsum : (crowd.members.map weightOf).sum = 4295032829 := by
    rw [← weightSum_true, crowd_members, weightSum_append, hfront, weightSum_cons_of_pos trivial, hlast, weightSum_nil]
  refine ⟨?_, ?_, fun hright => ?_⟩
  · rintro auth (h | ⟨_, h⟩ | ⟨_, h⟩)
    · obtain rfl := List.mem_singleton.mp h
      exact rfl
    · exact Option.some.inj h ▸ oneKey_plain
    · exact Option.some.inj h ▸ oneKey_plain
  · rw [isImpossible, hsum, hthreshold]
    exact decide_eq_false (by omega)
  have hgranted : ∀ x, crowded.consent.granted 2 (.account x) := fun x => .inr ⟨oneKey, rfl, oneKey_derivable 1⟩
  have hauthorised : crowded.Authorised (crowded.consent.DerivableWithin 2) :=
    { other := by
        intro au hau
        obtain rfl := List.mem_singleton.mp hau
        have hall : weightSum weightOf (fun _ => True) crowd.members ≤
            weightSum weightOf (fun e => crowded.consent.granted 2 e.1) crowd.members := by
          refine weightSum_mono fun e he _ => ?_
          obtain ⟨x, -, rfl⟩ := List.mem_map.mp (show e ∈ crowdFront (65536 + 1) from he)
          exact hgranted x.1
        refine le_trans ?_ hall
        rw [hthreshold, weightSum_true, hsum]
        omega
      active := fun id hid => absurd (FlatSet.mem_ofList.mp hid) List.not_mem_nil
      owner := fun id hid => absurd (FlatSet.mem_ofList.mp hid) List.not_mem_nil }
  have htest : ∀ e ∈ crowdFront 65536 ++ [(.account (65536 + 6), 65535)], ∀ s, crowded.Complete s → ∃ yes s',
      signedBy crowded.context (deeperOf crowded.context 2) e.1 s = .ok (yes, s') ∧ crowded.Complete s' ∧ (yes = true ↔ True) :=
    fun e he s hs => signedBy_crowd (crowd_members ▸ he) hs
  have hbelow : weightSum weightOf (fun _ => True) (crowdFront 65536) < crowd.weightThreshold.toNat := by omega
  have hwrap : 2 ^ 32 ≤ weightSum weightOf (fun _ => True) (crowdFront 65536) +
      weightOf ((.account (65536 + 6), 65535) : Member Nat Nat × Weight) := by omega
  have hafter : weightSum weightOf (fun _ => True) (crowdFront 65536) +
      weightOf ((.account (65536 + 6), 65535) : Member Nat Nat × Weight) - 2 ^ 32 +
        weightSum weightOf (fun _ : Member Nat Nat × Weight => True) [] < crowd.weightThreshold.toNat := by
    rw [weightSum_nil]
    omega
  have hle : crowd.weightThreshold.toNat ≤ 2 ^ 32 := by omega
  obtain ⟨t, s', hloop, -, ht⟩ := accumulate_wraps htest start_complete hle trivial hbelow hwrap hafter
  have hcheck : checkAuthority crowded.context 2 (some crowd) crowded.start = .ok (false, s') := by
    rw [checkAuthority_some, addMembers, crowd_members, hloop, ok_bind]
    exact congrArg (fun yes => Except.ok (yes, s')) (decide_eq_false (not_le.mpr ht))
  refine hright.complete hauthorised (.txMissingOtherAuth crowd) ?_ trivial
  have hdepth : crowded.context.maxRecursion = 2 := rfl
  have hother : crowded.other = [crowd] := rfl
  rw [verifyAuthority, (ensure_eq_ok (u := ())).mpr (.inr List.not_mem_nil), ok_bind, hother, List.foldlM_cons, requireOther, hdepth, hcheck]
  rfl

end Verification

end Khc.Auth
