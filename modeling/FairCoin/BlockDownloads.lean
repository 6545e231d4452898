import FairCoin.Announcements
import FairCoin.Lib.Run
import FairCoin.Lib.Tally

/-!
# Blocks in flight

`InitializeNode`, `FinalizeNode`, `MarkBlockAsReceived`, `MarkBlockAsInFlight`,
`UpdatePreferredDownload` and the sync part of `SendMessages` of `src/main.cpp`: which block is
being downloaded from which peer.

* `Downloads` — the states of the peers, the map of the blocks in flight and the three counters.
* `Downloads.step` — one call, with the crashes on a null pointer and on a dangling iterator.
* `Downloads.Linked` — the map and the lists mirror each other.
* `Downloads.Linked.step` — every call keeps it, and only `FinalizeNode` moves `nQueuedValidatedHeaders` away
  from the number of entries that it counts.
* `bookkeeping_iff` — **the books are right exactly as long as no peer goes with validated blocks in
  flight**.
-/

namespace FairCoin

open Store

/-! ## State -/

/-- A peer. -/
abbrev NodeId := ℤ

/-- A block that was asked for. -/
structure QueuedBlock where
  hash : UInt256
  pindex : Option UInt256
  nTime : ℤ
  nValidatedQueuedBefore : ℤ
  fValidatedHeaders : Bool
  deriving DecidableEq, Repr

/-- The download fields of `CNodeState`.  An entry of the list stands with the iterator that points
to it. -/
structure CNodeState where
  fSyncStarted : Bool := false
  nSyncRequestTime : ℤ := 0
  nStallingSince : ℤ := 0
  vBlocksInFlight : List (ℕ × QueuedBlock) := []
  nBlocksInFlight : ℤ := 0
  fPreferredDownload : Bool := false
  deriving DecidableEq, Repr

/-- The globals.  `nextIterator` is the place of the next list entry. -/
structure Downloads where
  mapNodeState : Map NodeId CNodeState := ∅
  mapBlocksInFlight : Map UInt256 (NodeId × ℕ) := ∅
  nQueuedValidatedHeaders : ℤ := 0
  nSyncStarted : ℤ := 0
  nPreferredDownload : ℤ := 0
  nextIterator : ℕ := 0

/-- How a call crashes. -/
inductive DownloadCrash where
  | nullState
  | assertState
  | danglingIterator
  deriving DecidableEq, Repr

/-- One call. -/
inductive DownloadCall where
  | initializeNode (nodeid : NodeId)
  | finalizeNode (nodeid : NodeId)
  | markBlockAsReceived (hash : UInt256)
  | markBlockAsInFlight (nodeid : NodeId) (hash : UInt256) (pindex : Option UInt256)
      (nTimeMicros : ℤ)
  | updatePreferredDownload (nodeid : NodeId) (fInbound fWhitelisted fOneShot fClient : Bool)
  | sendMessages (pto : NodeId) (fOneShot : Bool) (input : SyncInput)
  deriving DecidableEq, Repr

/-- A boolean in an integer expression. -/
def boolInt (b : Bool) : ℤ := if b then 1 else 0

namespace Downloads

/-! ## Calls -/

/-- `InitializeNode`: `insert` leaves a node that is there. -/
def initializeNode (s : Downloads) (nodeid : NodeId) : Downloads :=
  { s with mapNodeState := insertNew s.mapNodeState nodeid {} }

/-- `FinalizeNode`. -/
def finalizeNode (s : Downloads) (nodeid : NodeId) : Except DownloadCrash Downloads :=
  match s.mapNodeState.lookup nodeid with
  | none => .error .nullState
  | some state => .ok { s with
      nSyncStarted := s.nSyncStarted - boolInt state.fSyncStarted
      mapBlocksInFlight := state.vBlocksInFlight.foldl (fun m entry => m.erase entry.2.hash)
        s.mapBlocksInFlight
      nPreferredDownload := s.nPreferredDownload - boolInt state.fPreferredDownload
      mapNodeState := s.mapNodeState.erase nodeid }

/-- `MarkBlockAsReceived`. -/
def markBlockAsReceived (s : Downloads) (hash : UInt256) : Except DownloadCrash Downloads :=
  match s.mapBlocksInFlight.lookup hash with
  | none => .ok s
  | some (nodeid, it) =>
      match s.mapNodeState.lookup nodeid with
      | none => .error .nullState
      | some state =>
          match state.vBlocksInFlight.find? fun entry => entry.1 == it with
          | none => .error .danglingIterator
          | some entry => .ok { s with
              nQueuedValidatedHeaders :=
                s.nQueuedValidatedHeaders - boolInt entry.2.fValidatedHeaders
              mapNodeState := s.mapNodeState.insert nodeid { state with
                vBlocksInFlight := state.vBlocksInFlight.eraseP fun entry => entry.1 == it
                nBlocksInFlight := state.nBlocksInFlight - 1
                nStallingSince := 0 }
              mapBlocksInFlight := s.mapBlocksInFlight.erase hash }

/-- What `MarkBlockAsInFlight` does once the block is not listed anywhere. -/
def enqueue (s : Downloads) (nodeid : NodeId) (state : CNodeState) (hash : UInt256)
    (pindex : Option UInt256) (nTimeMicros : ℤ) : Downloads :=
  let newentry : QueuedBlock :=
    { hash := hash, pindex := pindex, nTime := nTimeMicros
      nValidatedQueuedBefore := s.nQueuedValidatedHeaders, fValidatedHeaders := pindex.isSome }
  { s with
    nQueuedValidatedHeaders := s.nQueuedValidatedHeaders + boolInt newentry.fValidatedHeaders
    mapNodeState := s.mapNodeState.insert nodeid { state with
      vBlocksInFlight := state.vBlocksInFlight ++ [(s.nextIterator, newentry)]
      nBlocksInFlight := state.nBlocksInFlight + 1 }
    mapBlocksInFlight := s.mapBlocksInFlight.insert hash (nodeid, s.nextIterator)
    nextIterator := s.nextIterator + 1 }

/-- `MarkBlockAsInFlight`. -/
def markBlockAsInFlight (s : Downloads) (nodeid : NodeId) (hash : UInt256)
    (pindex : Option UInt256) (nTimeMicros : ℤ) : Except DownloadCrash Downloads :=
  if (s.mapNodeState.lookup nodeid).isNone then .error .assertState
  else do
    let s ← s.markBlockAsReceived hash
    match s.mapNodeState.lookup nodeid with
    | none => .error .nullState
    | some state => .ok (s.enqueue nodeid state hash pindex nTimeMicros)

/-- `UpdatePreferredDownload`. -/
def updatePreferredDownload (s : Downloads) (nodeid : NodeId)
    (fInbound fWhitelisted fOneShot fClient : Bool) : Except DownloadCrash Downloads :=
  match s.mapNodeState.lookup nodeid with
  | none => .error .nullState
  | some state =>
      let fPreferredDownload := (!fInbound || fWhitelisted) && !fOneShot && !fClient
      .ok { s with
        nPreferredDownload := s.nPreferredDownload - boolInt state.fPreferredDownload +
          boolInt fPreferredDownload
        mapNodeState :=
          s.mapNodeState.insert nodeid { state with fPreferredDownload := fPreferredDownload } }

/-- The sync part of `SendMessages`, with `fFetch` as it is computed there. -/
def sendMessages (s : Downloads) (pto : NodeId) (fOneShot : Bool) (input : SyncInput) :
    Except DownloadCrash Downloads :=
  match s.mapNodeState.lookup pto with
  | none => .error .nullState
  | some state =>
      let fFetch := state.fPreferredDownload ||
        (s.nPreferredDownload == 0 && !input.fClient && !fOneShot)
      let sync := (syncRequest { input with fFetch := fFetch }
        { fSyncStarted := state.fSyncStarted, nSyncRequestTime := state.nSyncRequestTime
          nSyncStarted := s.nSyncStarted }).1
      .ok { s with
        nSyncStarted := sync.nSyncStarted
        mapNodeState := s.mapNodeState.insert pto { state with
          fSyncStarted := sync.fSyncStarted, nSyncRequestTime := sync.nSyncRequestTime } }

/-- One call. -/
def step (s : Downloads) : DownloadCall → Except DownloadCrash Downloads
  | .initializeNode nodeid => .ok (s.initializeNode nodeid)
  | .finalizeNode nodeid => s.finalizeNode nodeid
  | .markBlockAsReceived hash => s.markBlockAsReceived hash
  | .markBlockAsInFlight nodeid hash pindex nTimeMicros =>
      s.markBlockAsInFlight nodeid hash pindex nTimeMicros
  | .updatePreferredDownload nodeid fInbound fWhitelisted fOneShot fClient =>
      s.updatePreferredDownload nodeid fInbound fWhitelisted fOneShot fClient
  | .sendMessages pto fOneShot input => s.sendMessages pto fOneShot input

end Downloads

/-! ## The books -/

/-- The entries of a peer with validated headers. -/
def CNodeState.validated (state : CNodeState) : ℤ :=
  (state.vBlocksInFlight.map fun entry => boolInt entry.2.fValidatedHeaders).sum

namespace Downloads

/-- The map and the lists mirror each other, and every list is as long as it is said to be. -/
structure Linked (s : Downloads) : Prop where
  listed : ∀ hash nodeid it, s.mapBlocksInFlight.lookup hash = some (nodeid, it) →
    ∃ state, s.mapNodeState.lookup nodeid = some state ∧
      ∃ entry, (it, entry) ∈ state.vBlocksInFlight ∧ entry.hash = hash
  mapped : ∀ nodeid state, s.mapNodeState.lookup nodeid = some state →
    ∀ entry ∈ state.vBlocksInFlight,
      s.mapBlocksInFlight.lookup entry.2.hash = some (nodeid, entry.1)
  iterators : ∀ nodeid state, s.mapNodeState.lookup nodeid = some state →
    (state.vBlocksInFlight.map Prod.fst).Nodup
  below : ∀ nodeid state, s.mapNodeState.lookup nodeid = some state →
    ∀ entry ∈ state.vBlocksInFlight, entry.1 < s.nextIterator
  length : ∀ nodeid state, s.mapNodeState.lookup nodeid = some state →
    state.nBlocksInFlight = state.vBlocksInFlight.length
  syncStarted : s.nSyncStarted = tally (fun state => boolInt state.fSyncStarted) s.mapNodeState
  preferred :
    s.nPreferredDownload = tally (fun state => boolInt state.fPreferredDownload) s.mapNodeState

/-- The validated entries of all peers. -/
def validated (s : Downloads) : ℤ := tally CNodeState.validated s.mapNodeState

/-- The validated entries that a call drops without counting them down. -/
def dropped (s : Downloads) : DownloadCall → ℤ
  | .finalizeNode nodeid => share CNodeState.validated s.mapNodeState nodeid
  | _ => 0

variable {s s' : Downloads}

/-- A call that changes no list keeps the links. -/
theorem Linked.of_lists (hL : s.Linked) (hmap : s'.mapBlocksInFlight = s.mapBlocksInFlight)
    (hnext : s'.nextIterator = s.nextIterator)
    (hforth : ∀ n st, s.mapNodeState.lookup n = some st → ∃ st',
      s'.mapNodeState.lookup n = some st' ∧ st'.vBlocksInFlight = st.vBlocksInFlight)
    (hback : ∀ n st', s'.mapNodeState.lookup n = some st' →
      (st'.vBlocksInFlight = [] ∧ st'.nBlocksInFlight = 0) ∨
      ∃ st, s.mapNodeState.lookup n = some st ∧ st'.vBlocksInFlight = st.vBlocksInFlight ∧
        st'.nBlocksInFlight = st.nBlocksInFlight)
    (hsync : s'.nSyncStarted = tally (fun state => boolInt state.fSyncStarted) s'.mapNodeState)
    (hpref : s'.nPreferredDownload =
      tally (fun state => boolInt state.fPreferredDownload) s'.mapNodeState) : s'.Linked where
  listed hash n it h := by
    rw [hmap] at h
    obtain ⟨st, hst, entry, hentry, hhash⟩ := hL.listed hash n it h
    obtain ⟨st', hst', hlist⟩ := hforth n st hst
    exact ⟨st', hst', entry, by rw [hlist]; exact hentry, hhash⟩
  mapped n st' h entry hentry := by
    rw [hmap]
    rcases hback n st' h with ⟨hnil, -⟩ | ⟨st, hst, hlist, -⟩
    · rw [hnil] at hentry
      exact absurd hentry List.not_mem_nil
    · exact hL.mapped n st hst entry (hlist ▸ hentry)
  iterators n st' h := by
    rcases hback n st' h with ⟨hnil, -⟩ | ⟨st, hst, hlist, -⟩
    · rw [hnil]
      exact List.nodup_nil
    · rw [hlist]
      exact hL.iterators n st hst
  below n st' h entry hentry := by
    rw [hnext]
    rcases hback n st' h with ⟨hnil, -⟩ | ⟨st, hst, hlist, -⟩
    · rw [hnil] at hentry
      exact absurd hentry List.not_mem_nil
    · exact hL.below n st hst entry (hlist ▸ hentry)
  length n st' h := by
    rcases hback n st' h with ⟨hnil, hzero⟩ | ⟨st, hst, hlist, hlen⟩
    · rw [hnil, hzero]
      rfl
    · rw [hlist, hlen]
      exact hL.length n st hst
  syncStarted := hsync
  preferred := hpref

/-- What a call keeps, and by how much it moves `nQueuedValidatedHeaders` away from the entries. -/
structure Follows (s s' : Downloads) (lost : ℤ) : Prop where
  linked : s'.Linked
  drift : s'.nQueuedValidatedHeaders - s'.validated =
    s.nQueuedValidatedHeaders - s.validated + lost

/-- A peer whose list stays as it is. -/
theorem Linked.setState (hL : s.Linked) {n : NodeId} {st st' : CNodeState}
    (hn : s.mapNodeState.lookup n = some st) (hlist : st'.vBlocksInFlight = st.vBlocksInFlight)
    (hlen : st'.nBlocksInFlight = st.nBlocksInFlight) {sync pref : ℤ}
    (hsync : sync = s.nSyncStarted - boolInt st.fSyncStarted + boolInt st'.fSyncStarted)
    (hpref : pref =
      s.nPreferredDownload - boolInt st.fPreferredDownload + boolInt st'.fPreferredDownload) :
    s.Follows { s with
      mapNodeState := s.mapNodeState.insert n st'
      nSyncStarted := sync
      nPreferredDownload := pref } 0 := by
  refine ⟨hL.of_lists rfl rfl (fun m x hx => ?_) (fun m x hx => ?_) ?_ ?_, ?_⟩
  · rw [lookup_insert_eq]
    split
    · next hm =>
      rw [hm, hn] at hx
      cases hx
      exact ⟨st', rfl, hlist⟩
    · exact ⟨x, hx, rfl⟩
  · rw [lookup_insert_eq] at hx
    split at hx
    · next hm =>
      cases hx
      exact .inr ⟨st, by rw [hm, hn], hlist, hlen⟩
    · exact .inr ⟨x, hx, rfl, rfl⟩
  · simp only [tally_insert, share_of_lookup _ hn, ← hL.syncStarted]
    exact hsync
  · simp only [tally_insert, share_of_lookup _ hn, ← hL.preferred]
    exact hpref
  · have hval : st'.validated = st.validated := by rw [CNodeState.validated, hlist]; rfl
    simp only [validated, tally_insert, share_of_lookup _ hn, hval]
    omega

theorem Linked.initializeNode (hL : s.Linked) (n : NodeId) :
    s.Follows (s.initializeNode n) 0 := by
  rw [Downloads.initializeNode, insertNew]
  split
  · exact ⟨hL, (add_zero _).symm⟩
  · next hnone =>
    rw [Option.not_isSome_iff_eq_none] at hnone
    refine ⟨hL.of_lists rfl rfl (fun m x hx => ?_) (fun m x hx => ?_) ?_ ?_, ?_⟩
    · refine ⟨x, ?_, rfl⟩
      rw [lookup_insert_eq, if_neg]
      · exact hx
      · rintro rfl
        rw [hnone] at hx
        cases hx
    · rw [lookup_insert_eq] at hx
      split at hx
      · cases hx
        exact .inl ⟨rfl, rfl⟩
      · exact .inr ⟨x, hx, rfl, rfl⟩
    · simp only [tally_insert, share_of_none _ hnone, ← hL.syncStarted]
      simp [boolInt]
    · simp only [tally_insert, share_of_none _ hnone, ← hL.preferred]
      simp [boolInt]
    · simp [validated, tally_insert, share_of_none _ hnone, CNodeState.validated]

theorem Linked.updatePreferredDownload (hL : s.Linked) {n : NodeId} {a b c d : Bool}
    (h : s.updatePreferredDownload n a b c d = .ok s') : s.Follows s' 0 := by
  unfold Downloads.updatePreferredDownload at h
  split at h
  · cases h
  · next st hst =>
    cases h
    refine hL.setState hst ?_ ?_ ?_ ?_
    · rfl
    · rfl
    · exact (sub_add_cancel _ _).symm
    · rfl

/-- The sync part moves the counter with the flag. -/
theorem syncRequest_count (i : SyncInput) (st : SyncState) :
    (syncRequest i st).1.nSyncStarted =
      st.nSyncStarted - boolInt st.fSyncStarted + boolInt (syncRequest i st).1.fSyncStarted := by
  unfold syncRequest
  simp only
  split_ifs with hrelease hstart hstart
  · simp_all [boolInt]
  · simp_all [boolInt]
  · simp_all [boolInt]
  · simp

theorem Linked.sendMessages (hL : s.Linked) {n : NodeId} {fOneShot : Bool} {i : SyncInput}
    (h : s.sendMessages n fOneShot i = .ok s') : s.Follows s' 0 := by
  unfold Downloads.sendMessages at h
  split at h
  · cases h
  · next st hst =>
    cases h
    refine hL.setState hst ?_ ?_ ?_ ?_
    · rfl
    · rfl
    · exact syncRequest_count _ _
    · exact (sub_add_cancel _ _).symm

/-- What is listed under a hash stands in the list of its peer, and only there. -/
theorem Linked.eq_of_hash (hL : s.Linked) {n m : NodeId} {st st' : CNodeState}
    (hn : s.mapNodeState.lookup n = some st) (hm : s.mapNodeState.lookup m = some st')
    {a b : ℕ × QueuedBlock} (ha : a ∈ st.vBlocksInFlight) (hb : b ∈ st'.vBlocksInFlight)
    (hash : a.2.hash = b.2.hash) : n = m ∧ a.1 = b.1 := by
  have ha' := hL.mapped n st hn a ha
  have hb' := hL.mapped m st' hm b hb
  rw [hash, hb'] at ha'
  have hpair := Prod.mk.inj (Option.some.inj ha')
  exact ⟨hpair.1.symm, hpair.2.symm⟩

/-- The peers that stay keep their blocks when one goes. -/
theorem Linked.finalizeNode (hL : s.Linked) {n : NodeId} (h : s.finalizeNode n = .ok s') :
    s.Follows s' (share CNodeState.validated s.mapNodeState n) := by
  unfold Downloads.finalizeNode at h
  split at h
  · cases h
  · next st hst =>
    cases h
    have hstay : ∀ m x, (s.mapNodeState.erase n).lookup m = some x →
        m ≠ n ∧ s.mapNodeState.lookup m = some x := by
      intro m x hx
      rw [lookup_erase_eq] at hx
      split at hx
      · cases hx
      · next hm => exact ⟨hm, hx⟩
    refine ⟨⟨fun hash m it h => ?_, fun m x hx entry hentry => ?_, fun m x hx => ?_,
      fun m x hx => ?_, fun m x hx => ?_, ?_, ?_⟩, ?_⟩
    · rw [lookup_foldl_erase] at h
      obtain ⟨x, hx, entry, hentry, hhash⟩ := hL.listed hash m it h.1
      refine ⟨x, ?_, entry, hentry, hhash⟩
      rw [lookup_erase_eq, if_neg]
      · exact hx
      · rintro rfl
        rw [hst] at hx
        cases hx
        exact h.2 (List.mem_map.2 ⟨(it, entry), hentry, hhash⟩)
    · obtain ⟨hm, hx⟩ := hstay m x hx
      rw [lookup_foldl_erase]
      refine ⟨hL.mapped m x hx entry hentry, fun hin => ?_⟩
      obtain ⟨other, hother, hhash⟩ := List.mem_map.1 hin
      exact hm (hL.eq_of_hash hx hst hentry hother hhash.symm).1
    · exact hL.iterators m x (hstay m x hx).2
    · exact hL.below m x (hstay m x hx).2
    · exact hL.length m x (hstay m x hx).2
    · simp only [tally_erase, share_of_lookup _ hst, ← hL.syncStarted]
    · simp only [tally_erase, share_of_lookup _ hst, ← hL.preferred]
    · simp only [validated, tally_erase]
      omega

/-- An iterator finds its entry, and erases just that one. -/
theorem find?_of_iterator {l : List (ℕ × QueuedBlock)} (hnodup : (l.map Prod.fst).Nodup) {it : ℕ}
    {entry : QueuedBlock} (h : (it, entry) ∈ l) :
    l.find? (fun e => e.1 == it) = some (it, entry) ∧ ∃ l₁ l₂, l = l₁ ++ (it, entry) :: l₂ ∧
      l.eraseP (fun e => e.1 == it) = l₁ ++ l₂ ∧ ∀ e ∈ l₁ ++ l₂, e.1 ≠ it := by
  obtain ⟨l₁, l₂, rfl⟩ := List.append_of_mem h
  rw [List.map_append, List.map_cons, List.nodup_middle, List.nodup_cons, ← List.map_append]
    at hnodup
  have hne : ∀ e ∈ l₁ ++ l₂, e.1 ≠ it := fun e he hit =>
    hnodup.1 (List.mem_map.2 ⟨e, he, hit⟩)
  have hne₁ : ∀ e ∈ l₁, ¬(e.1 == it) = true := fun e he => by
    simpa using hne e (List.mem_append_left _ he)
  refine ⟨?_, l₁, l₂, rfl, ?_, hne⟩
  · rw [List.find?_append, List.find?_eq_none.2 hne₁, Option.none_or,
      List.find?_cons_of_pos (by simp)]
  · rw [List.eraseP_append_right _ hne₁, List.eraseP_cons_of_pos (by simp)]

/-- A block that is received leaves its peer's list and the map; the iterator is good. -/
theorem Linked.markBlockAsReceived (hL : s.Linked) (hash : UInt256) :
    ∃ s', s.markBlockAsReceived hash = .ok s' ∧ s.Follows s' 0 ∧
      s'.mapBlocksInFlight.lookup hash = none ∧
      ∀ n, (s.mapNodeState.lookup n).isSome → (s'.mapNodeState.lookup n).isSome := by
  unfold Downloads.markBlockAsReceived
  split
  · next hnone => exact ⟨s, rfl, ⟨hL, (add_zero _).symm⟩, hnone, fun n h => h⟩
  · next n it hin =>
    obtain ⟨st, hst, entry, hentry, hhash⟩ := hL.listed hash n it hin
    simp only [hst]
    obtain ⟨hfind, l₁, l₂, hlist, herase, hne⟩ :=
      find?_of_iterator (hL.iterators n st hst) hentry
    have hsub : ∀ e ∈ l₁ ++ l₂, e ∈ st.vBlocksInFlight := by
      intro e he
      rw [hlist]
      rcases List.mem_append.1 he with he | he
      · exact List.mem_append_left _ he
      · exact List.mem_append_right _ (List.mem_cons_of_mem _ he)
    simp only [hfind, herase]
    refine ⟨_, rfl, ⟨⟨fun hash' m it' h => ?_, fun m x hx e he => ?_, fun m x hx => ?_,
      fun m x hx e he => ?_, fun m x hx => ?_, ?_, ?_⟩, ?_⟩, ?_, fun m hm => ?_⟩
    · rw [lookup_erase_eq] at h
      split at h
      · cases h
      · next hother =>
        obtain ⟨x, hx, entry', hentry', hhash'⟩ := hL.listed hash' m it' h
        rw [lookup_insert_eq]
        split
        · next hm =>
          rw [hm, hst] at hx
          cases hx
          refine ⟨_, rfl, entry', ?_, hhash'⟩
          rw [hlist, List.mem_append, List.mem_cons] at hentry'
          rcases hentry' with hl | heq | hr
          · exact List.mem_append_left _ hl
          · cases heq
            exact absurd (hhash'.symm.trans hhash) hother
          · exact List.mem_append_right _ hr
        · exact ⟨x, hx, entry', hentry', hhash'⟩
    · rw [lookup_insert_eq] at hx
      split at hx
      · next hm =>
        cases hx
        rw [lookup_erase_eq, if_neg, hm]
        · exact hL.mapped n st hst e (hsub e he)
        · intro heq
          exact hne e he (hL.eq_of_hash hst hst (hsub e he) hentry (heq.trans hhash.symm)).2
      · next hm =>
        rw [lookup_erase_eq, if_neg]
        · exact hL.mapped m x hx e he
        · intro heq
          exact hm (hL.eq_of_hash hx hst he hentry (heq.trans hhash.symm)).1
    · rw [lookup_insert_eq] at hx
      split at hx
      · cases hx
        have hnodup := hL.iterators n st hst
        rw [hlist] at hnodup
        exact hnodup.sublist
          (((List.Sublist.refl l₁).append (List.sublist_cons_self _ l₂)).map _)
      · exact hL.iterators m x hx
    · rw [lookup_insert_eq] at hx
      split at hx
      · cases hx
        exact hL.below n st hst e (hsub e he)
      · exact hL.below m x hx e he
    · rw [lookup_insert_eq] at hx
      split at hx
      · cases hx
        have hlen := hL.length n st hst
        rw [hlist, List.length_append, List.length_cons] at hlen
        simp only [List.length_append]
        omega
      · exact hL.length m x hx
    · simp only [tally_insert, share_of_lookup _ hst, ← hL.syncStarted]
      omega
    · simp only [tally_insert, share_of_lookup _ hst, ← hL.preferred]
      omega
    · simp only [validated, tally_insert, share_of_lookup _ hst, CNodeState.validated, hlist,
        List.map_append, List.map_cons, List.sum_append, List.sum_cons]
      omega
    · rw [lookup_erase_eq, if_pos rfl]
    · rw [lookup_insert_eq]
      split
      · rfl
      · exact hm

/-- A block that is listed nowhere is put at the end of a list and in the map. -/
theorem Linked.enqueue (hL : s.Linked) {n : NodeId} {st : CNodeState}
    (hst : s.mapNodeState.lookup n = some st) {hash : UInt256}
    (hnone : s.mapBlocksInFlight.lookup hash = none) (pindex : Option UInt256) (nTimeMicros : ℤ) :
    s.Follows (s.enqueue n st hash pindex nTimeMicros) 0 := by
  have hnew : ∀ m x, s.mapNodeState.lookup m = some x → ∀ e ∈ x.vBlocksInFlight,
      e.2.hash ≠ hash := by
    intro m x hx e he heq
    have := hL.mapped m x hx e he
    rw [heq, hnone] at this
    cases this
  unfold Downloads.enqueue
  refine ⟨⟨fun hash' m it h => ?_, fun m x hx e he => ?_, fun m x hx => ?_, fun m x hx e he => ?_,
    fun m x hx => ?_, ?_, ?_⟩, ?_⟩
  · rw [lookup_insert_eq] at h
    split at h
    · next heq =>
      cases h
      refine ⟨_, by rw [lookup_insert_eq, if_pos rfl], _, List.mem_append_right _
        List.mem_cons_self, heq.symm⟩
    · next hother =>
      obtain ⟨x, hx, entry, hentry, hhash⟩ := hL.listed hash' m it h
      rw [lookup_insert_eq]
      split
      · next hm =>
        rw [hm, hst] at hx
        cases hx
        exact ⟨_, rfl, entry, List.mem_append_left _ hentry, hhash⟩
      · exact ⟨x, hx, entry, hentry, hhash⟩
  · rw [lookup_insert_eq] at hx
    split at hx
    · next hm =>
      cases hx
      rcases List.mem_append.1 he with he | he
      · rw [lookup_insert_eq, if_neg (hnew n st hst e he), hm]
        exact hL.mapped n st hst e he
      · rw [List.mem_singleton.1 he, lookup_insert_eq, if_pos rfl, hm]
    · rw [lookup_insert_eq, if_neg (hnew m x hx e he)]
      exact hL.mapped m x hx e he
  · rw [lookup_insert_eq] at hx
    split at hx
    · cases hx
      rw [List.map_append, List.nodup_append]
      refine ⟨hL.iterators n st hst, List.nodup_singleton _, fun a ha b hb hab => ?_⟩
      obtain ⟨e, he, rfl⟩ := List.mem_map.1 ha
      have hlt := hL.below n st hst e he
      rw [List.mem_singleton.1 hb] at hab
      omega
    · exact hL.iterators m x hx
  · rw [lookup_insert_eq] at hx
    split at hx
    · cases hx
      rcases List.mem_append.1 he with he | he
      · exact Nat.lt_succ_of_lt (hL.below n st hst e he)
      · rw [List.mem_singleton.1 he]
        exact Nat.lt_succ_self _
    · exact Nat.lt_succ_of_lt (hL.below m x hx e he)
  · rw [lookup_insert_eq] at hx
    split at hx
    · cases hx
      simp only [hL.length n st hst, List.length_append, List.length_singleton]
      omega
    · exact hL.length m x hx
  · simp only [tally_insert, share_of_lookup _ hst, ← hL.syncStarted]
    omega
  · simp only [tally_insert, share_of_lookup _ hst, ← hL.preferred]
    omega
  · simp only [validated, tally_insert, share_of_lookup _ hst, CNodeState.validated,
      List.map_append, List.map_cons, List.map_nil, List.sum_append, List.sum_cons, List.sum_nil]
    omega

/-- A block that is asked for again leaves the list it was on. -/
theorem Linked.markBlockAsInFlight (hL : s.Linked) {n : NodeId} {hash : UInt256}
    {pindex : Option UInt256} {nTimeMicros : ℤ}
    (h : s.markBlockAsInFlight n hash pindex nTimeMicros = .ok s') : s.Follows s' 0 := by
  obtain ⟨s₁, hreceived, hfollows, hnone, -⟩ := hL.markBlockAsReceived hash
  unfold Downloads.markBlockAsInFlight at h
  split at h
  · cases h
  · rw [hreceived] at h
    simp only [bind, Except.bind] at h
    split at h
    · cases h
    · next st hst =>
      cases h
      obtain ⟨hlinked, hdrift⟩ := hfollows.linked.enqueue hst hnone pindex nTimeMicros
      refine ⟨hlinked, ?_⟩
      have := hfollows.drift
      omega

/-- **What a call does to the books.** -/
theorem Linked.step (hL : s.Linked) {call : DownloadCall} (h : s.step call = .ok s') :
    s.Follows s' (s.dropped call) := by
  cases call with
  | initializeNode nodeid =>
    cases h
    exact hL.initializeNode nodeid
  | finalizeNode nodeid => exact hL.finalizeNode h
  | markBlockAsReceived hash =>
    obtain ⟨s₁, hreceived, hfollows, -⟩ := hL.markBlockAsReceived hash
    cases hreceived.symm.trans h
    exact hfollows
  | markBlockAsInFlight nodeid hash pindex nTimeMicros => exact hL.markBlockAsInFlight h
  | updatePreferredDownload nodeid fInbound fWhitelisted fOneShot fClient =>
    exact hL.updatePreferredDownload h
  | sendMessages pto fOneShot input => exact hL.sendMessages h

/-- At the start there is nothing. -/
theorem Linked.start : ({} : Downloads).Linked := by
  have hnone : ∀ n, (∅ : Map NodeId CNodeState).lookup n = none := fun n => AList.lookup_empty n
  refine ⟨fun hash n it h => ?_, fun n st h => ?_, fun n st h => ?_, fun n st h => ?_,
    fun n st h => ?_, rfl, rfl⟩
  · cases (AList.lookup_empty hash).symm.trans h
  all_goals cases (hnone n).symm.trans h

/-! ## Runs -/

/-- The books as they should be. -/
structure Bookkeeping (s : Downloads) : Prop where
  /-- A hash in the map belongs to a live node and an entry of its list. -/
  listed : ∀ hash nodeid it, s.mapBlocksInFlight.lookup hash = some (nodeid, it) →
    ∃ state, s.mapNodeState.lookup nodeid = some state ∧
      ∃ entry, (it, entry) ∈ state.vBlocksInFlight ∧ entry.hash = hash
  /-- An entry of a list is what the map has for its hash. -/
  mapped : ∀ nodeid state, s.mapNodeState.lookup nodeid = some state →
    ∀ entry ∈ state.vBlocksInFlight,
      s.mapBlocksInFlight.lookup entry.2.hash = some (nodeid, entry.1)
  /-- No list has a hash twice. -/
  once : ∀ nodeid state, s.mapNodeState.lookup nodeid = some state →
    (state.vBlocksInFlight.map fun entry => entry.2.hash).Nodup
  counted : ∀ nodeid state, s.mapNodeState.lookup nodeid = some state →
    state.nBlocksInFlight = state.vBlocksInFlight.length
  queued : s.nQueuedValidatedHeaders = s.validated
  syncStarted : s.nSyncStarted = tally (fun state => boolInt state.fSyncStarted) s.mapNodeState
  /-- Once all nodes are finalized, nothing is left. -/
  left : (∀ nodeid, s.mapNodeState.lookup nodeid = none) →
    (∀ hash, s.mapBlocksInFlight.lookup hash = none) ∧ s.nQueuedValidatedHeaders = 0 ∧
      s.nSyncStarted = 0

/-- With the links, all hangs on one counter. -/
theorem Linked.books_iff (hL : s.Linked) :
    s.Bookkeeping ↔ s.nQueuedValidatedHeaders = s.validated := by
  refine ⟨Bookkeeping.queued, fun hqueued => ⟨hL.listed, hL.mapped, fun n st hst => ?_, hL.length,
    hqueued, hL.syncStarted, fun hgone => ⟨fun hash => ?_, ?_, ?_⟩⟩⟩
  · have hnodup := hL.iterators n st hst
    rw [List.Nodup, List.pairwise_map] at hnodup ⊢
    exact hnodup.imp_of_mem fun ha hb hne heq => hne (hL.eq_of_hash hst hst ha hb heq).2
  · cases hin : s.mapBlocksInFlight.lookup hash with
    | none => rfl
    | some at' =>
      obtain ⟨st, hst, -⟩ := hL.listed hash at'.1 at'.2 hin
      cases (hgone _).symm.trans hst
  · rw [hqueued]
    exact tally_eq_zero _ fun n st hst => by cases (hgone n).symm.trans hst
  · rw [hL.syncStarted]
    exact tally_eq_zero _ fun n st hst => by cases (hgone n).symm.trans hst

/-- No peer goes with validated blocks in flight. -/
def NothingDropped (s : Downloads) (call : DownloadCall) : Prop :=
  ∀ nodeid, call = .finalizeNode nodeid → ∀ state, s.mapNodeState.lookup nodeid = some state →
    ∀ entry ∈ state.vBlocksInFlight, entry.2.fValidatedHeaders = false

theorem boolInt_nonneg (b : Bool) : 0 ≤ boolInt b := by
  cases b <;> decide

/-- A list has no validated entries when their number is zero. -/
theorem validated_eq_zero_iff (state : CNodeState) :
    state.validated = 0 ↔ ∀ entry ∈ state.vBlocksInFlight, entry.2.fValidatedHeaders = false := by
  rw [CNodeState.validated]
  induction state.vBlocksInFlight with
  | nil => simp
  | cons e l ih =>
    have hl : 0 ≤ (l.map fun entry => boolInt entry.2.fValidatedHeaders).sum :=
      List.sum_nonneg fun x hx => by
        obtain ⟨e, -, rfl⟩ := List.mem_map.1 hx
        exact boolInt_nonneg _
    rw [List.map_cons, List.sum_cons, List.forall_mem_cons, ← ih]
    cases e.2.fValidatedHeaders with
    | false => simp [boolInt]
    | true =>
      have hone : boolInt true = 1 := rfl
      rw [hone]
      constructor
      · intro h
        omega
      · exact fun h => absurd h.1 (by simp)

theorem nothingDropped_iff (s : Downloads) (call : DownloadCall) :
    s.NothingDropped call ↔ s.dropped call = 0 := by
  cases call with
  | finalizeNode nodeid =>
    rw [NothingDropped, dropped, share]
    cases hst : s.mapNodeState.lookup nodeid with
    | none =>
      refine ⟨fun _ => rfl, fun _ n hn st hst' => ?_⟩
      cases hn
      cases hst.symm.trans hst'
    | some st =>
      rw [Option.elim_some, validated_eq_zero_iff]
      refine ⟨fun h => h nodeid rfl st hst, fun h n hn st' hst' => ?_⟩
      cases hn
      cases hst.symm.trans hst'
      exact h
  | _ => exact ⟨fun _ => rfl, fun _ n hn => by cases hn⟩

/-- A call that crashes drops nothing. -/
theorem nothingDropped_of_error {call : DownloadCall} {e : DownloadCrash}
    (h : s.step call = .error e) : s.NothingDropped call := by
  rintro n rfl st hst
  simp only [Downloads.step, Downloads.finalizeNode, hst] at h
  cases h

/-- The books along a run that starts with the books right. -/
theorem Linked.run_iff {calls : List DownloadCall} : ∀ {s : Downloads}, s.Linked →
    s.nQueuedValidatedHeaders = s.validated →
    ((∀ pre, pre <+: calls → ∀ s', Run.run Downloads.step s pre = .ok s' → s'.Bookkeeping) ↔
      Run.Along Downloads.step NothingDropped s calls) := by
  induction calls with
  | nil =>
    intro s hL hqueued
    refine ⟨fun _ => trivial, fun _ pre hpre s' h => ?_⟩
    rw [List.prefix_nil.1 hpre] at h
    cases h
    exact hL.books_iff.2 hqueued
  | cons call calls ih =>
    intro s hL hqueued
    constructor
    · intro h
      -- the books after the call are right, so the call has dropped nothing
      have hcall : ∀ s₁, s.step call = .ok s₁ →
          s₁.nQueuedValidatedHeaders = s₁.validated ∧ s.dropped call = 0 := by
        intro s₁ h₁
        have hbooks := (h [call] (by simp) s₁ (Run.run_cons h₁ rfl)).queued
        have := (hL.step h₁).drift
        exact ⟨hbooks, by omega⟩
      refine ⟨?_, fun s₁ h₁ => (ih (hL.step h₁).linked (hcall s₁ h₁).1).1 fun pre hpre s' hrun => ?_⟩
      · cases h₁ : s.step call with
        | error e => exact nothingDropped_of_error h₁
        | ok s₁ => exact (nothingDropped_iff s call).2 (hcall s₁ h₁).2
      · exact h (call :: pre) (List.cons_prefix_cons.2 ⟨rfl, hpre⟩) s' (Run.run_cons h₁ hrun)
    · rintro ⟨hdropped, hrest⟩ pre hpre s' hrun
      cases pre with
      | nil =>
        cases hrun
        exact hL.books_iff.2 hqueued
      | cons c pre =>
        obtain ⟨rfl, hpre'⟩ := List.cons_prefix_cons.1 hpre
        obtain ⟨s₁, h₁, h₂⟩ := Run.run_cons_eq_ok hrun
        have hstep := hL.step h₁
        have hqueued₁ : s₁.nQueuedValidatedHeaders = s₁.validated := by
          have := hstep.drift
          rw [(nothingDropped_iff s c).1 hdropped] at this
          omega
        exact (ih hstep.linked hqueued₁).2 (hrest s₁ h₁) pre hpre' s' h₂

end Downloads

/-! ## The result -/

/-- **The books of the block download.**  In every run of the calls, whatever their order, the books
are right in every state that is reached exactly when no peer is finalized with a block in flight
that has validated headers: `FinalizeNode` takes its entries out of `mapBlocksInFlight` and leaves
`nQueuedValidatedHeaders` as it was, where `MarkBlockAsReceived` counts them down. -/
theorem bookkeeping_iff (calls : List DownloadCall) :
    (∀ pre, pre <+: calls → ∀ s, Run.run Downloads.step {} pre = .ok s → s.Bookkeeping) ↔
      Run.Along Downloads.step Downloads.NothingDropped {} calls :=
  Downloads.Linked.start.run_iff rfl

/-- A peer that goes while a block is on its way from it. -/
theorem bookkeeping_leak : ¬∀ calls s, Run.run Downloads.step {} calls = .ok s →
    s.Bookkeeping := by
  intro h
  have hbooks := h [.initializeNode 1, .markBlockAsInFlight 1 7 (some 7) 0, .finalizeNode 1] _ rfl
  have hqueued := hbooks.queued
  revert hqueued
  decide

end FairCoin
