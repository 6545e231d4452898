import FairCoin.StandardScripts
import FairCoin.Lib.Store
import FairCoin.Lib.Merging

/-!
# Address groupings

`CWallet::GetAddressGroupings` of `src/wallet.cpp`: which destinations of the wallet are known to
belong together, because one transaction spent from both or sent the change of the one to the other.

* `groupings` — the groups of single transactions, and every own destination by itself.
* `addGrouping` — one round of the merging loop, with the sets on the heap behind pointers, the set
  of live pointers and the map from a destination to the pointer of its set.
* `Groups.Sound.addGrouping` — no round follows a pointer to a deleted set, and each refines
  `Merging.absorb`.
* `addressGroupings_partition` — **the result is the partition of the own destinations by chains of
  transactions**.
-/

namespace FairCoin

/-! ## The wallet and its groups -/

namespace CTxDestination

/-- What `operator<` of the variant compares: the alternative, then its hash. -/
def key : CTxDestination → ℕ ×ₗ ℕ
  | keyID h => toLex (1, h.toNat)
  | scriptID h => toLex (2, h.toNat)

theorem key_injective : Function.Injective key := by
  rintro (a | a) (b | b) h
  · rw [BitVec.eq_of_toNat_eq (congrArg (fun p => (ofLex p).2) h)]
  · exact absurd (congrArg (fun p => (ofLex p).1) h) (by simp [key])
  · exact absurd (congrArg (fun p => (ofLex p).1) h) (by simp [key])
  · rw [BitVec.eq_of_toNat_eq (congrArg (fun p => (ofLex p).2) h)]

instance : LinearOrder CTxDestination := LinearOrder.lift' key key_injective

end CTxDestination

/-- What `GetAddressGroupings` reads of a wallet: its transactions in the order of their hashes, what
is its own, and the destinations in the address book. -/
structure GroupingWallet where
  mapWallet : List CTransaction
  sorted : mapWallet.Pairwise fun a b => a.hash < b.hash
  isMine : CScript → Bool
  extractDestination : CScript → Option CTxDestination
  mapAddressBook : Finset CTxDestination

namespace GroupingWallet

variable (w : GroupingWallet)

/-- The output an input spends, if `IsMine(txin)`. -/
def ownPrevout (txin : CTxIn) : Option CTxOut :=
  match w.mapWallet.find? (·.hash = txin.prevout.hash) with
  | none => none
  | some prev => prev.vout[txin.prevout.n]?.filter fun out => w.isMine out.scriptPubKey

/-- `IsChange`: ours, but not in the address book. -/
def isChange (txout : CTxOut) : Bool :=
  w.isMine txout.scriptPubKey &&
    match w.extractDestination txout.scriptPubKey with
    | none => true
    | some address => decide (address ∉ w.mapAddressBook)

/-- The destinations of the own inputs of a transaction. -/
def inputAddresses (tx : CTransaction) : List CTxDestination :=
  tx.vin.filterMap fun txin =>
    (w.ownPrevout txin).bind fun out => w.extractDestination out.scriptPubKey

/-- The destinations of its change. -/
def changeAddresses (tx : CTransaction) : List CTxDestination :=
  (tx.vout.filter w.isChange).filterMap fun out => w.extractDestination out.scriptPubKey

/-- The destinations of its own outputs. -/
def outputAddresses (tx : CTransaction) : List CTxDestination :=
  (tx.vout.filter fun out => w.isMine out.scriptPubKey).filterMap fun out =>
    w.extractDestination out.scriptPubKey

/-- The group of a transaction: all input addresses with each other, and the change with them. -/
def inputGrouping (tx : CTransaction) : Finset CTxDestination :=
  let grouping := (w.inputAddresses tx).toFinset
  -- `any_mine`
  if w.inputAddresses tx ≠ [] then grouping ∪ (w.changeAddresses tx).toFinset else grouping

/-- What a transaction adds to `groupings`: its group, and the lone addresses by themselves. -/
def groupingsOf (tx : CTransaction) : List (Finset CTxDestination) :=
  (if 0 < tx.vin.length ∧ 0 < (w.inputGrouping tx).card then [w.inputGrouping tx] else []) ++
    (w.outputAddresses tx).map fun address => {address}

/-- `groupings`. -/
def groupings : Finset (Finset CTxDestination) := (w.mapWallet.flatMap w.groupingsOf).toFinset

end GroupingWallet

/-! ## The merging loop -/

/-- `new`: an address that no live object has. -/
structure Allocator where
  next : Finset ℕ → ℕ
  fresh : ∀ live, next live ∉ live

/-- The state of the merging loop: the sets on the heap by their addresses, `uniqueGroupings` and
`setmap`. -/
structure Groups where
  heap : Store.Map ℕ (Finset CTxDestination) := ∅
  uniqueGroupings : Finset ℕ := ∅
  setmap : Store.Map CTxDestination ℕ := ∅

namespace Groups

/-- The pointers of all the groups hit by a new group. -/
def hits (st : Groups) (grouping : Finset CTxDestination) : Finset ℕ :=
  ((grouping.sort (· ≤ ·)).filterMap st.setmap.lookup).toFinset

/-- Move the hit groups over to the new one and delete them; `none` when a pointer is followed whose
set is gone. -/
def mergeHits : List ℕ → Finset CTxDestination → Groups → Option (Finset CTxDestination × Groups)
  | [], merged, st => some (merged, st)
  | hit :: hits, merged, st =>
      match st.heap.lookup hit with
      | none => none
      | some group =>
          mergeHits hits (merged ∪ group)
            { st with
              heap := st.heap.erase hit
              uniqueGroupings := st.uniqueGroupings.erase hit }

/-- One round: merge the hit groups into a new set, and point the addresses in it to it. -/
def addGrouping (new : Allocator) (st : Groups) (grouping : Finset CTxDestination) :
    Option Groups :=
  let p := new.next st.heap.keys.toFinset
  match mergeHits ((st.hits grouping).sort (· ≤ ·)) grouping st with
  | none => none
  | some (merged, st) =>
      some
        { heap := st.heap.insert p merged
          uniqueGroupings := insert p st.uniqueGroupings
          setmap := (merged.sort (· ≤ ·)).foldl (fun m element => m.insert element p) st.setmap }

/-- `ret`: what the live pointers point to. -/
def ret (st : Groups) : Option (Finset (Finset CTxDestination)) :=
  ((st.uniqueGroupings.sort (· ≤ ·)).mapM st.heap.lookup).map List.toFinset

end Groups

namespace GroupingWallet

/-- A set of sets is walked in the lexicographic order of its elements. -/
def walk (w : GroupingWallet) : List (Finset CTxDestination) :=
  ((w.groupings.image fun grouping => grouping.sort (· ≤ ·)).sort (· ≤ ·)).map List.toFinset

/-- `GetAddressGroupings`. -/
def getAddressGroupings (w : GroupingWallet) (new : Allocator) :
    Option (Finset (Finset CTxDestination)) :=
  (w.walk.foldlM (Groups.addGrouping new) {}).bind Groups.ret

theorem mem_walk (w : GroupingWallet) (g : Finset CTxDestination) :
    g ∈ w.walk ↔ g ∈ w.groupings := by
  simp [walk]

end GroupingWallet

/-! ## The pointers and the blocks -/

theorem lookup_foldl_insert {K V : Type} [DecidableEq K] (ks : List K) (m : Store.Map K V)
    (x : V) (k : K) :
    (ks.foldl (fun m k => m.insert k x) m).lookup k = if k ∈ ks then some x else m.lookup k := by
  induction ks generalizing m with
  | nil => simp
  | cons k' ks ih =>
    rw [List.foldl_cons, ih, Store.lookup_insert_eq]
    by_cases hk : k ∈ ks
    · rw [if_pos hk, if_pos (List.mem_cons_of_mem k' hk)]
    · rw [if_neg hk]
      by_cases hk' : k = k'
      · rw [if_pos hk', if_pos (by simp [hk'])]
      · rw [if_neg hk', if_neg (by simp [hk', hk])]

theorem mapM_eq_some_map {A B : Type} {f : A → Option B} {g : A → B} (l : List A)
    (h : ∀ a ∈ l, f a = some (g a)) : l.mapM f = some (l.map g) := by
  induction l with
  | nil => rfl
  | cons a l ih =>
    rw [List.mapM_cons, h a (by simp), ih fun b hb => h b (by simp [hb])]
    rfl

namespace Groups

/-- The live pointers are those with a set on the heap, every address of a set leads to it, and
nothing else is in the map; the sets are the blocks. -/
structure Sound (st : Groups) (blocks : Finset (Finset CTxDestination)) : Prop where
  live : ∀ p, p ∈ st.uniqueGroupings ↔ ∃ s, st.heap.lookup p = some s
  setmap : ∀ a p, st.setmap.lookup a = some p ↔ ∃ s, st.heap.lookup p = some s ∧ a ∈ s
  blocks : ∀ s, s ∈ blocks ↔ ∃ p, st.heap.lookup p = some s

theorem mem_hits {st : Groups} {g : Finset CTxDestination} {p : ℕ} :
    p ∈ st.hits g ↔ ∃ a ∈ g, st.setmap.lookup a = some p := by
  simp [hits]

/-- Merging hit groups that are live takes their addresses over and leaves the other groups. -/
theorem mergeHits_spec (hs : List ℕ) (hnodup : hs.Nodup) (merged : Finset CTxDestination)
    (st : Groups) (hlive : ∀ p ∈ hs, ∃ s, st.heap.lookup p = some s) :
    ∃ m st', mergeHits hs merged st = some (m, st') ∧
      (∀ x, x ∈ m ↔ x ∈ merged ∨ ∃ p ∈ hs, ∃ s, st.heap.lookup p = some s ∧ x ∈ s) ∧
      (∀ q, st'.heap.lookup q = if q ∈ hs then none else st.heap.lookup q) ∧
      (∀ q, q ∈ st'.uniqueGroupings ↔ q ∈ st.uniqueGroupings ∧ q ∉ hs) ∧
      st'.setmap = st.setmap := by
  induction hs generalizing merged st with
  | nil => exact ⟨merged, st, rfl, by simp, by simp, by simp, rfl⟩
  | cons hit hs ih =>
    obtain ⟨hnot, hnodup⟩ := List.nodup_cons.1 hnodup
    obtain ⟨group, hgroup⟩ := hlive hit (by simp)
    have hkeep : ∀ p ∈ hs, (st.heap.erase hit).lookup p = st.heap.lookup p := by
      intro p hp
      rw [Store.lookup_erase_eq, if_neg (ne_of_mem_of_not_mem hp hnot)]
    obtain ⟨m, st', hrun, hm, hheap, hunique, hmap⟩ :=
      ih hnodup (merged ∪ group)
        { st with
          heap := st.heap.erase hit
          uniqueGroupings := st.uniqueGroupings.erase hit }
        fun p hp => by rw [hkeep p hp]; exact hlive p (by simp [hp])
    refine ⟨m, st', by rw [mergeHits, hgroup]; exact hrun, fun x => ?_, fun q => ?_, fun q => ?_,
      hmap⟩
    · rw [hm, Finset.mem_union, or_assoc]
      refine or_congr_right ?_
      simp only [List.mem_cons, exists_eq_or_imp, hgroup, Option.some.injEq, exists_eq_left']
      refine or_congr_right (exists_congr fun p => and_congr_right fun hp => ?_)
      rw [hkeep p hp]
    · rw [hheap, Store.lookup_erase_eq]
      by_cases hq : q ∈ hs
      · rw [if_pos hq, if_pos (by simp [hq])]
      · rw [if_neg hq]
        by_cases hqh : q = hit
        · rw [if_pos hqh, if_pos (by simp [hqh])]
        · rw [if_neg hqh, if_neg (by simp [hq, hqh])]
    · rw [hunique, Finset.mem_erase]
      simp only [List.mem_cons]
      tauto

namespace Sound

variable {st : Groups} {blocks : Finset (Finset CTxDestination)}

theorem start : Sound {} ∅ where
  live := by simp
  setmap := by simp
  blocks := by simp

/-- The pointers that are hit are those to the blocks that are hit. -/
theorem mem_hits_iff (h : Sound st blocks) {g : Finset CTxDestination} {p : ℕ} :
    p ∈ st.hits g ↔ ∃ s, st.heap.lookup p = some s ∧ ∃ a ∈ g, a ∈ s := by
  rw [mem_hits]
  constructor
  · rintro ⟨a, ha, hp⟩
    obtain ⟨s, hs, has⟩ := (h.setmap a p).1 hp
    exact ⟨s, hs, a, ha, has⟩
  · rintro ⟨s, hs, a, ha, has⟩
    exact ⟨a, ha, (h.setmap a p).2 ⟨s, hs, has⟩⟩

/-- What one round leaves: the new set and the old ones that were missed, and all addresses of the
new set lead to it. -/
theorem addGrouping_spec (h : Sound st blocks) (new : Allocator) (g : Finset CTxDestination) :
    ∃ p st', st.addGrouping new g = some st' ∧
      (∀ q s, st'.heap.lookup q = some s ↔
        (q = p ∧ s = Merging.merged blocks g) ∨ (st.heap.lookup q = some s ∧ ∀ a ∈ g, a ∉ s)) ∧
      (∀ q, q ∈ st'.uniqueGroupings ↔ q = p ∨ (q ∈ st.uniqueGroupings ∧ q ∉ st.hits g)) ∧
      (∀ a, st'.setmap.lookup a =
        if a ∈ Merging.merged blocks g then some p else st.setmap.lookup a) := by
  set p := new.next st.heap.keys.toFinset with hp
  have hfresh : st.heap.lookup p = none := by
    have hnot := new.fresh st.heap.keys.toFinset
    rw [← hp, List.mem_toFinset] at hnot
    exact AList.lookup_eq_none.2 hnot
  have hlive : ∀ q ∈ (st.hits g).sort (· ≤ ·), ∃ s, st.heap.lookup q = some s := by
    intro q hq
    obtain ⟨s, hs, -⟩ := h.mem_hits_iff.1 ((Finset.mem_sort _).1 hq)
    exact ⟨s, hs⟩
  obtain ⟨m, st', hrun, hm, hheap, hunique, hmap⟩ :=
    mergeHits_spec _ (Finset.sort_nodup _ _) g st hlive
  have hmerged : m = Merging.merged blocks g := by
    ext x
    rw [hm, Merging.mem_merged]
    refine or_congr_right ⟨?_, ?_⟩
    · rintro ⟨q, hq, s, hs, hx⟩
      obtain ⟨t, ht, a, ha, hat⟩ := h.mem_hits_iff.1 ((Finset.mem_sort _).1 hq)
      rw [hs] at ht
      cases ht
      exact ⟨s, (h.blocks s).2 ⟨q, hs⟩, ⟨a, ha, hat⟩, hx⟩
    · rintro ⟨s, hs, ⟨a, ha, hat⟩, hx⟩
      obtain ⟨q, hq⟩ := (h.blocks s).1 hs
      exact ⟨q, (Finset.mem_sort _).2 (h.mem_hits_iff.2 ⟨s, hq, a, ha, hat⟩), s, hq, hx⟩
  refine ⟨p, _, by rw [Groups.addGrouping, hrun], fun q s => ?_, fun q => ?_, fun a => ?_⟩
  · show (st'.heap.insert p m).lookup q = some s ↔ _
    rw [Store.lookup_insert_eq, hheap, ← hmerged]
    by_cases hq : q = p
    · rw [if_pos hq, hq, hfresh]
      simp [eq_comm]
    · rw [if_neg hq]
      simp only [hq, false_and, false_or, Finset.mem_sort, h.mem_hits_iff]
      split
      · next hhit =>
        obtain ⟨t, ht, a, ha, hat⟩ := hhit
        simp only [ht, reduceCtorEq, Option.some.injEq, false_iff, not_and]
        rintro rfl hmiss
        exact hmiss a ha hat
      · next hmiss =>
        exact ⟨fun hs => ⟨hs, fun a ha has => hmiss ⟨s, hs, a, ha, has⟩⟩, And.left⟩
  · show q ∈ insert p st'.uniqueGroupings ↔ _
    rw [Finset.mem_insert, hunique, Finset.mem_sort]
  · show ((m.sort (· ≤ ·)).foldl (fun m element => m.insert element p) st'.setmap).lookup a = _
    rw [lookup_foldl_insert, hmap]
    simp only [Finset.mem_sort, hmerged]

/-- **One round of the loop refines the merging of one group.** -/
theorem addGrouping (h : Sound st blocks) (new : Allocator) (g : Finset CTxDestination) :
    ∃ st', st.addGrouping new g = some st' ∧ Sound st' (Merging.absorb blocks g) := by
  obtain ⟨p, st', hrun, hheap, hunique, hmap⟩ := h.addGrouping_spec new g
  refine ⟨st', hrun, fun q => ?_, fun a q => ?_, fun s => ?_⟩
  · rw [hunique, h.live, h.mem_hits_iff]
    simp only [hheap]
    constructor
    · rintro (hq | ⟨⟨s, hs⟩, hmiss⟩)
      · exact ⟨_, .inl ⟨hq, rfl⟩⟩
      · exact ⟨s, .inr ⟨hs, fun a ha has => hmiss ⟨s, hs, a, ha, has⟩⟩⟩
    · rintro ⟨s, ⟨hq, -⟩ | ⟨hs, hmiss⟩⟩
      · exact .inl hq
      · refine .inr ⟨⟨s, hs⟩, ?_⟩
        rintro ⟨t, ht, a, ha, hat⟩
        rw [hs] at ht
        cases ht
        exact hmiss a ha hat
  · rw [hmap]
    simp only [hheap]
    constructor
    · split
      · next ha =>
        rintro ⟨⟩
        exact ⟨_, .inl ⟨rfl, rfl⟩, ha⟩
      · next ha =>
        intro hq
        obtain ⟨s, hs, has⟩ := (h.setmap a q).1 hq
        refine ⟨s, .inr ⟨hs, fun b hb hbs => ha ?_⟩, has⟩
        exact Merging.subset_merged_of_hit ((h.blocks s).2 ⟨q, hs⟩) ⟨b, hb, hbs⟩ has
    · rintro ⟨s, ⟨rfl, rfl⟩ | ⟨hs, hmiss⟩, has⟩
      · rw [if_pos has]
      · have ha : a ∉ Merging.merged blocks g := by
          rw [Merging.mem_merged]
          rintro (ha | ⟨b, hb, ⟨z, hz, hzb⟩, hab⟩)
          · exact hmiss a ha has
          · obtain ⟨r, hr⟩ := (h.blocks b).1 hb
            have hqr : q = r := Option.some.inj
              (((h.setmap a q).2 ⟨s, hs, has⟩).symm.trans ((h.setmap a r).2 ⟨b, hr, hab⟩))
            rw [← hqr, hs] at hr
            cases hr
            exact hmiss z hz hzb
        rw [if_neg ha]
        exact (h.setmap a q).2 ⟨s, hs, has⟩
  · simp only [hheap, Merging.mem_absorb, h.blocks]
    constructor
    · rintro (rfl | ⟨⟨q, hq⟩, hmiss⟩)
      · exact ⟨p, .inl ⟨rfl, rfl⟩⟩
      · exact ⟨q, .inr ⟨hq, hmiss⟩⟩
    · rintro ⟨q, ⟨-, rfl⟩ | ⟨hq, hmiss⟩⟩
      · exact .inl rfl
      · exact .inr ⟨⟨q, hq⟩, hmiss⟩

/-- **The loop follows no pointer to a deleted set, and leaves the blocks of the library's run.** -/
theorem run (h : Sound st blocks) (new : Allocator) (gs : List (Finset CTxDestination)) :
    ∃ st', gs.foldlM (Groups.addGrouping new) st = some st' ∧
      Sound st' (gs.foldl Merging.absorb blocks) := by
  induction gs generalizing st blocks with
  | nil => exact ⟨st, rfl, h⟩
  | cons g gs ih =>
    obtain ⟨st₁, h₁, hsound⟩ := h.addGrouping new g
    obtain ⟨st', hrun, hst'⟩ := ih hsound
    exact ⟨st', by rw [List.foldlM_cons, h₁]; exact hrun, hst'⟩

/-- What the pointers point to in the end are the blocks. -/
theorem ret_eq (h : Sound st blocks) : st.ret = some blocks := by
  have hall : ∀ p ∈ st.uniqueGroupings.sort (· ≤ ·),
      st.heap.lookup p = some ((st.heap.lookup p).getD ∅) := by
    intro p hp
    obtain ⟨s, hs⟩ := (h.live p).1 ((Finset.mem_sort _).1 hp)
    rw [hs]
    rfl
  rw [Groups.ret, mapM_eq_some_map _ hall]
  refine congrArg some (Finset.ext fun s => ?_)
  rw [List.mem_toFinset, List.mem_map, h.blocks]
  constructor
  · rintro ⟨p, hp, rfl⟩
    exact ⟨p, hall p hp⟩
  · rintro ⟨p, hp⟩
    exact ⟨p, (Finset.mem_sort _).2 ((h.live p).2 ⟨s, hp⟩), by rw [hp]; rfl⟩

end Sound

end Groups

/-! ## The partition -/

namespace GroupingWallet

variable (w : GroupingWallet)

/-- A transaction of the wallet spends from a destination: of one of its own inputs. -/
def SpendsFrom (tx : CTransaction) (a : CTxDestination) : Prop :=
  ∃ txin ∈ tx.vin, ∃ out, w.ownPrevout txin = some out ∧
    w.extractDestination out.scriptPubKey = some a

/-- A transaction of the wallet has change to a destination. -/
def ChangeTo (tx : CTransaction) (a : CTxDestination) : Prop :=
  ∃ out ∈ tx.vout, w.isChange out = true ∧ w.extractDestination out.scriptPubKey = some a

/-- A transaction of the wallet has an own output to a destination. -/
def PaysOwn (tx : CTransaction) (a : CTxDestination) : Prop :=
  ∃ out ∈ tx.vout, w.isMine out.scriptPubKey = true ∧
    w.extractDestination out.scriptPubKey = some a

/-- One transaction spends from both destinations, or from one with change to the other. -/
def Linked (a b : CTxDestination) : Prop :=
  ∃ tx ∈ w.mapWallet, (w.SpendsFrom tx a ∧ w.SpendsFrom tx b) ∨
    (w.SpendsFrom tx a ∧ w.ChangeTo tx b) ∨ (w.ChangeTo tx a ∧ w.SpendsFrom tx b)

variable {w} {tx : CTransaction} {a b : CTxDestination}

theorem mem_inputAddresses : a ∈ w.inputAddresses tx ↔ w.SpendsFrom tx a := by
  simp [inputAddresses, SpendsFrom, Option.bind_eq_some_iff]

theorem mem_changeAddresses : a ∈ w.changeAddresses tx ↔ w.ChangeTo tx a := by
  simp [changeAddresses, ChangeTo, and_assoc]

theorem mem_outputAddresses : a ∈ w.outputAddresses tx ↔ w.PaysOwn tx a := by
  simp [outputAddresses, PaysOwn, and_assoc]

/-- Change is an own output. -/
theorem ChangeTo.paysOwn (h : w.ChangeTo tx a) : w.PaysOwn tx a := by
  obtain ⟨out, hout, hchange, ha⟩ := h
  refine ⟨out, hout, ?_, ha⟩
  rw [isChange, Bool.and_eq_true] at hchange
  exact hchange.1

theorem SpendsFrom.vin_ne_nil (h : w.SpendsFrom tx a) : 0 < tx.vin.length := by
  obtain ⟨txin, htxin, -⟩ := h
  exact List.length_pos_of_mem htxin

theorem mem_inputGrouping : a ∈ w.inputGrouping tx ↔
    w.SpendsFrom tx a ∨ (w.ChangeTo tx a ∧ ∃ b, w.SpendsFrom tx b) := by
  simp only [inputGrouping]
  split
  · next hne =>
    obtain ⟨b, hb⟩ := List.exists_mem_of_ne_nil _ hne
    have hex : ∃ b, w.SpendsFrom tx b := ⟨b, mem_inputAddresses.1 hb⟩
    rw [Finset.mem_union, List.mem_toFinset, List.mem_toFinset, mem_inputAddresses,
      mem_changeAddresses, and_iff_left hex]
  · next hnil =>
    have hno : ¬ ∃ b, w.SpendsFrom tx b := by
      rintro ⟨b, hb⟩
      exact hnil (List.ne_nil_of_mem (mem_inputAddresses.2 hb))
    rw [List.mem_toFinset, mem_inputAddresses]
    simp [hno]

/-- The groups: the inputs with the change of a transaction that spends, and the lone addresses. -/
theorem mem_groupings {g : Finset CTxDestination} :
    g ∈ w.groupings ↔ ∃ tx ∈ w.mapWallet,
      ((∃ a, w.SpendsFrom tx a) ∧ g = w.inputGrouping tx) ∨ ∃ a, w.PaysOwn tx a ∧ g = {a} := by
  have hspends : ∀ tx, (0 < tx.vin.length ∧ 0 < (w.inputGrouping tx).card) ↔
      ∃ a, w.SpendsFrom tx a := by
    intro tx
    rw [Finset.card_pos]
    constructor
    · rintro ⟨-, a, ha⟩
      rcases mem_inputGrouping.1 ha with ha | ⟨-, hex⟩
      · exact ⟨a, ha⟩
      · exact hex
    · rintro ⟨a, ha⟩
      exact ⟨ha.vin_ne_nil, a, mem_inputGrouping.2 (.inl ha)⟩
  rw [groupings, List.mem_toFinset, List.mem_flatMap]
  refine exists_congr fun tx => and_congr_right fun _ => ?_
  rw [groupingsOf, List.mem_append, List.mem_map]
  refine or_congr ?_ (exists_congr fun a => ?_)
  · rw [← hspends]
    split
    · next h => rw [List.mem_singleton, and_iff_right h]
    · next h => exact iff_of_false List.not_mem_nil fun hg => h hg.1
  · rw [mem_outputAddresses]
    exact and_congr_right fun _ => eq_comm

theorem nonempty_of_mem_groupings {g : Finset CTxDestination} (hg : g ∈ w.groupings) :
    g.Nonempty := by
  obtain ⟨tx, -, ⟨⟨a, ha⟩, rfl⟩ | ⟨a, -, rfl⟩⟩ := mem_groupings.1 hg
  · exact ⟨a, mem_inputGrouping.2 (.inl ha)⟩
  · exact Finset.singleton_nonempty a

/-- The destinations in the groups: of own outputs, of own inputs and of change. -/
theorem exists_mem_groupings_iff : (∃ g ∈ w.groupings, a ∈ g) ↔
    ∃ tx ∈ w.mapWallet, w.PaysOwn tx a ∨ w.SpendsFrom tx a ∨ w.ChangeTo tx a := by
  constructor
  · rintro ⟨g, hg, ha⟩
    obtain ⟨tx, htx, ⟨-, rfl⟩ | ⟨b, hb, rfl⟩⟩ := mem_groupings.1 hg
    · rcases mem_inputGrouping.1 ha with ha | ⟨ha, -⟩
      · exact ⟨tx, htx, .inr (.inl ha)⟩
      · exact ⟨tx, htx, .inr (.inr ha)⟩
    · rw [Finset.mem_singleton.1 ha]
      exact ⟨tx, htx, .inl hb⟩
  · have lone : ∀ tx ∈ w.mapWallet, w.PaysOwn tx a → ∃ g ∈ w.groupings, a ∈ g := fun tx htx ha =>
      ⟨{a}, mem_groupings.2 ⟨tx, htx, .inr ⟨a, ha, rfl⟩⟩, Finset.mem_singleton_self a⟩
    rintro ⟨tx, htx, ha | ha | ha⟩
    · exact lone tx htx ha
    · exact ⟨w.inputGrouping tx, mem_groupings.2 ⟨tx, htx, .inl ⟨⟨a, ha⟩, rfl⟩⟩,
        mem_inputGrouping.2 (.inl ha)⟩
    · exact lone tx htx ha.paysOwn

/-- Two destinations of one group are linked through the input the group has. -/
theorem reach_of_joined (h : Merging.Joined {g | g ∈ w.groupings} a b) :
    Relation.ReflTransGen w.Linked a b := by
  obtain ⟨g, hg, ha, hb⟩ := h
  obtain ⟨tx, htx, ⟨⟨c, hc⟩, rfl⟩ | ⟨c, -, rfl⟩⟩ := mem_groupings.1 hg
  · have hac : w.Linked a c := by
      rcases mem_inputGrouping.1 ha with ha | ⟨ha, -⟩
      · exact ⟨tx, htx, .inl ⟨ha, hc⟩⟩
      · exact ⟨tx, htx, .inr (.inr ⟨ha, hc⟩)⟩
    have hcb : w.Linked c b := by
      rcases mem_inputGrouping.1 hb with hb | ⟨hb, -⟩
      · exact ⟨tx, htx, .inl ⟨hc, hb⟩⟩
      · exact ⟨tx, htx, .inr (.inl ⟨hc, hb⟩)⟩
    exact (Relation.ReflTransGen.single hac).tail hcb
  · rw [Finset.mem_singleton.1 ha, Finset.mem_singleton.1 hb]

/-- Linked destinations are in one group. -/
theorem joined_of_linked (h : w.Linked a b) : Merging.Joined {g | g ∈ w.groupings} a b := by
  obtain ⟨tx, htx, h⟩ := h
  have join : ∀ c, w.SpendsFrom tx c → a ∈ w.inputGrouping tx → b ∈ w.inputGrouping tx →
      Merging.Joined {g | g ∈ w.groupings} a b := fun c hc ha hb =>
    ⟨w.inputGrouping tx, mem_groupings.2 ⟨tx, htx, .inl ⟨⟨c, hc⟩, rfl⟩⟩, ha, hb⟩
  rcases h with ⟨ha, hb⟩ | ⟨ha, hb⟩ | ⟨ha, hb⟩
  · exact join a ha (mem_inputGrouping.2 (.inl ha)) (mem_inputGrouping.2 (.inl hb))
  · exact join a ha (mem_inputGrouping.2 (.inl ha)) (mem_inputGrouping.2 (.inr ⟨hb, a, ha⟩))
  · exact join b hb (mem_inputGrouping.2 (.inr ⟨ha, b, hb⟩)) (mem_inputGrouping.2 (.inl hb))

theorem reach_joined_iff :
    Relation.ReflTransGen (Merging.Joined {g | g ∈ w.groupings}) a b ↔
      Relation.ReflTransGen w.Linked a b := by
  constructor
  · intro h
    induction h with
    | refl => exact .refl
    | tail _ hbc ih => exact ih.trans (reach_of_joined hbc)
  · exact Relation.ReflTransGen.mono (fun _ _ => joined_of_linked) a b

/-- The groups are merged to the result. -/
theorem getAddressGroupings_spec (w : GroupingWallet) (new : Allocator) :
    ∃ ret, w.getAddressGroupings new = some ret ∧
      Merging.Partitions {g | g ∈ w.groupings} ret := by
  obtain ⟨st, hrun, hst⟩ := Groups.Sound.start.run new w.walk
  refine ⟨_, by rw [getAddressGroupings, hrun]; exact hst.ret_eq, ?_⟩
  have hpart := Merging.partitions_foldl w.walk
    (fun g hg => nonempty_of_mem_groupings ((w.mem_walk g).1 hg)) Merging.partitions_empty
  simpa only [w.mem_walk, Set.empty_union] using hpart

/-- **`GetAddressGroupings` returns a partition.**  The sets are not empty and disjoint, together they
have the destinations of own outputs, own inputs and change, and two of these are in one set exactly
when a chain of transactions links them. -/
theorem addressGroupings_partition (w : GroupingWallet) (new : Allocator) :
    ∃ ret, w.getAddressGroupings new = some ret ∧
      (∀ s ∈ ret, s.Nonempty) ∧
      (∀ s ∈ ret, ∀ t ∈ ret, s ≠ t → Disjoint s t) ∧
      (∀ a, (∃ s ∈ ret, a ∈ s) ↔
        ∃ tx ∈ w.mapWallet, w.PaysOwn tx a ∨ w.SpendsFrom tx a ∨ w.ChangeTo tx a) ∧
      (∀ a b, (∃ s ∈ ret, a ∈ s) →
        ((∃ s ∈ ret, a ∈ s ∧ b ∈ s) ↔ Relation.ReflTransGen w.Linked a b)) := by
  obtain ⟨ret, hrun, h⟩ := w.getAddressGroupings_spec new
  refine ⟨ret, hrun, h.nonempty, fun s hs t ht hne => ?_, fun a => ?_, fun a b ha => ?_⟩
  · rw [Finset.disjoint_left]
    exact fun x hx hxt => hne (h.disjoint s hs t ht x hx hxt)
  · rw [h.exists_mem_iff]
    exact exists_mem_groupings_iff
  · rw [h.exists_block_iff ha, reach_joined_iff]

end GroupingWallet

end FairCoin
