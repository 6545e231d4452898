import FairCoin.SelectionMoves

/-!
# What is marked

Which entries of the block index the functions of `src/main.cpp` mark as failed, and for which
they store data, in whatever state they are called.

* `Reasons`, `Marks` — entries, pointers and flags stay, and what is new has its reason.
* `activateBestChain_marks` — **activation marks only** what `ConnectBlock` finds invalid, and
  blocks whose parents are marked.
* `acceptBlock_marks` — **the arrival of a block marks only that block**, when its checks find it
  invalid and not corrupted.
-/

namespace FairCoin

open Store

/-! ## Marked entries -/

/-- Why an entry may be marked, have its data, or point to a parent; `inherit` when blocks are
also marked because their parents are. -/
structure Reasons where
  failed : UInt256 → Prop
  inherit : Prop
  data : UInt256 → Prop
  link : UInt256 → UInt256 → Prop

/-- What a function does to the pointers and the flags: entries, pointers and flags stay, and new
ones have their reasons. -/
structure Marks (r : Reasons) (s s' : SelectState) : Prop where
  mem : ∀ h ∈ s.mapBlockIndex, h ∈ s'.mapBlockIndex
  pprev : ∀ h ∈ s.mapBlockIndex, (s'.index h).pprev = (s.index h).pprev
  keep : ∀ h, (s.index h).nStatus.failed = true → (s'.index h).nStatus.failed = true
  fresh : ∀ h, (s'.index h).nStatus.failed = true → (s.index h).nStatus.failed = true ∨ r.failed h ∨
    r.inherit ∧ ∃ p, (s'.index h).pprev = some p ∧ (s'.index p).nStatus.failed = true
  keepData : ∀ h, (s.index h).nStatus.haveData = true → (s'.index h).nStatus.haveData = true
  freshData : ∀ h, (s'.index h).nStatus.haveData = true →
    (s.index h).nStatus.haveData = true ∨ r.data h
  link : ∀ h p, (s'.index h).pprev = some p → (s.index h).pprev = some p ∨ r.link h p

theorem BlockTree.mem_of_failed {t : BlockTree} {h : UInt256}
    (hfail : (t.index h).nStatus.failed = true) : h ∈ t.mapBlockIndex := by
  by_contra hmem
  rw [BlockTree.index, AList.lookup_eq_none.2 hmem] at hfail
  exact absurd hfail (by simp [BlockStatus.failed])

namespace Marks

variable {r : Reasons} {s s' s'' : SelectState}

theorem of_map_eq (h : s'.mapBlockIndex = s.mapBlockIndex) : Marks r s s' := by
  have hindex : ∀ x, s'.index x = s.index x := fun x => by
    rw [BlockTree.index, h, BlockTree.index]
  refine ⟨fun x hx => by rwa [h], fun x _ => by rw [hindex], fun x hx => by rwa [hindex],
    fun x hx => .inl ?_, fun x hx => by rwa [hindex], fun x hx => .inl ?_, fun x p hx => .inl ?_⟩
  · rwa [hindex] at hx
  · rwa [hindex] at hx
  · rwa [hindex] at hx

theorem refl (s : SelectState) : Marks r s s := of_map_eq rfl

theorem trans (h₁ : Marks r s s') (h₂ : Marks r s' s'') : Marks r s s'' where
  mem h hh := h₂.mem h (h₁.mem h hh)
  pprev h hh := (h₂.pprev h (h₁.mem h hh)).trans (h₁.pprev h hh)
  keep h hh := h₂.keep h (h₁.keep h hh)
  fresh h hh := by
    rcases h₂.fresh h hh with hmid | hR | hparent
    · rcases h₁.fresh h hmid with hold | hR | ⟨hr, p, hp, hfail⟩
      · exact .inl hold
      · exact .inr (.inl hR)
      · refine .inr (.inr ⟨hr, p, ?_, h₂.keep p hfail⟩)
        rw [h₂.pprev h (BlockTree.mem_of_failed hmid), hp]
    · exact .inr (.inl hR)
    · exact .inr (.inr hparent)
  keepData h hh := h₂.keepData h (h₁.keepData h hh)
  freshData h hh := by
    rcases h₂.freshData h hh with hmid | hD
    · exact h₁.freshData h hmid
    · exact .inr hD
  link h p hh := by
    rcases h₂.link h p hh with hmid | hL
    · exact h₁.link h p hmid
    · exact .inr hL

/-- A change of one entry that leaves its pointer alone, keeps its flags and adds some for a
reason. -/
theorem modify (s : SelectState) (h : UInt256) {f : CBlockIndex → CBlockIndex}
    (hpprev : ∀ p, (f p).pprev = p.pprev)
    (hfailed : ∀ p, (f p).nStatus.failed = p.nStatus.failed ∨ (f p).nStatus.failed = true ∧ r.failed h)
    (hdata : ∀ p, (f p).nStatus.haveData = p.nStatus.haveData ∨
      (f p).nStatus.haveData = true ∧ r.data h) :
    Marks r s (s.modify h f) := by
  have hindex : ∀ x, ((s.modify h f).index x = f (s.index x) ∧ x = h) ∨
      (s.modify h f).index x = s.index x := by
    intro x
    rw [s.index_modify]
    split
    · next hx => exact .inl ⟨by rw [hx], hx⟩
    · exact .inr rfl
  refine ⟨fun x hx => ?_, fun x _ => ?_, fun x hx => ?_, fun x hx => ?_, fun x hx => ?_,
    fun x hx => ?_, fun x p hx => .inl ?_⟩
  · rw [SelectState.modify, AList.mem_insert]
    exact .inr hx
  · rcases hindex x with ⟨heq, -⟩ | heq
    · rw [heq, hpprev]
    · rw [heq]
  · rcases hindex x with ⟨heq, -⟩ | heq
    · rw [heq]
      rcases hfailed (s.index x) with hf | hf
      · rwa [hf]
      · exact hf.1
    · rwa [heq]
  · rcases hindex x with ⟨heq, rfl⟩ | heq
    · rw [heq] at hx
      rcases hfailed (s.index x) with hf | hf
      · exact .inl (hf ▸ hx)
      · exact .inr (.inl hf.2)
    · exact .inl (heq ▸ hx)
  · rcases hindex x with ⟨heq, -⟩ | heq
    · rw [heq]
      rcases hdata (s.index x) with hd | hd
      · rwa [hd]
      · exact hd.1
    · rwa [heq]
  · rcases hindex x with ⟨heq, rfl⟩ | heq
    · rw [heq] at hx
      rcases hdata (s.index x) with hd | hd
      · exact .inl (hd ▸ hx)
      · exact .inr hd.2
    · exact .inl (heq ▸ hx)
  · rcases hindex x with ⟨heq, -⟩ | heq
    · rwa [heq, hpprev] at hx
    · rwa [heq] at hx

/-- A change of fields that play no part here. -/
theorem modify_other (s : SelectState) (h : UInt256) {f : CBlockIndex → CBlockIndex}
    (hf : ∀ p, ∃ st : BlockStatus, (f p).nStatus = st ∧ (f p).pprev = p.pprev ∧
      st.failed = p.nStatus.failed ∧ st.haveData = p.nStatus.haveData) :
    Marks r s (s.modify h f) := by
  apply modify
  · intro p
    obtain ⟨st, -, hp, -⟩ := hf p
    exact hp
  · intro p
    obtain ⟨st, hst, -, hfail, -⟩ := hf p
    exact .inl (hst ▸ hfail)
  · intro p
    obtain ⟨st, hst, -, -, hdata⟩ := hf p
    exact .inl (hst ▸ hdata)

end Marks

/-- What a call that returns leaves behind. -/
def Marking (r : Reasons) (s : SelectState) : Except Stop SelectState → Prop
  | .ok s' => Marks r s s'
  | .error (.fails s') => Marks r s s'
  | .error _ => True

theorem Marking.trans {r : Reasons} {s s₁ : SelectState} {res : Except Stop SelectState}
    (h₁ : Marks r s s₁) (h₂ : Marking r s₁ res) : Marking r s res := by
  match res, h₂ with
  | .ok _, h₂ => exact h₁.trans h₂
  | .error (.fails _), h₂ => exact h₁.trans h₂
  | .error .abort, _ => trivial
  | .error (.crash _), _ => trivial
  | .error .outOfFuel, _ => trivial

/-! ## What activation marks -/

section Activation

open SelectState

variable (env : SelectEnv)

/-- Activation marks the blocks that some call of `ConnectBlock` finds invalid. -/
def SelectEnv.reasons (env : SelectEnv) : Reasons where
  failed h := ∃ n, env.connectBlock n h = .invalid false
  inherit := True
  data _ := False
  link _ _ := False

theorem markConnected_marks {r : Reasons} (s : SelectState) (h : UInt256) :
    Marks r s (s.modify h (markConnected env h)) := by
  apply Marks.modify_other
  intro p
  obtain ⟨st, hst, hdata, hfail, -⟩ := markConnected_spec env h p
  rw [hst]
  exact ⟨st, rfl, rfl, hfail, hdata⟩

/-- What `ConnectTip` marks. -/
theorem connectTip_marks (s : SelectState) (h : UInt256) :
    Marking env.reasons s ((s.connectTip env h).map Prod.snd) := by
  rw [SelectState.connectTip]
  split
  · trivial
  · simp only
    have htick : Marks env.reasons s { s with nConnects := s.nConnects + 1 } := .of_map_eq rfl
    split
    · next hv =>
      split
      · trivial
      · exact htick.trans ((markConnected_marks env _ h).trans
          (.of_map_eq (setTip_mapBlockIndex _ _)))
    · exact htick
    · next hv =>
      refine htick.trans (Marks.trans (Marks.modify (f := .markFailedValid) _ h (fun _ => rfl)
        (fun p => .inr ?_) fun p => .inl rfl) (.of_map_eq rfl))
      exact ⟨by simp [CBlockIndex.markFailedValid, BlockStatus.failed], s.nConnects, hv⟩
    · exact htick
    · trivial

theorem disconnectTip_marks {r : Reasons} (s : SelectState) :
    Marking r s (s.disconnectTip env) := by
  rw [SelectState.disconnectTip]
  split
  · trivial
  · split
    · trivial
    · split
      · exact Marks.refl s
      · simp only
        have htick : Marks r s { s with nDisconnects := s.nDisconnects + 1 } := .of_map_eq rfl
        split
        · exact htick.trans (.of_map_eq (setTip_mapBlockIndex _ _))
        · exact htick
        · exact htick
        · trivial

theorem disconnectTo_marks {r : Reasons} (fork : Option UInt256) (n : ℕ) :
    ∀ s : SelectState, Marking r s (disconnectTo env fork n s) := by
  induction n with
  | zero => exact fun s => Marks.refl s
  | succ n ih =>
    intro s
    rw [disconnectTo]
    split
    · exact Marks.refl s
    · have htip := disconnectTip_marks env (r := r) s
      split
      · next e he => rwa [he] at htip
      · next s₁ hs₁ =>
        rw [hs₁] at htip
        exact Marking.trans htip (ih s₁)

theorem pruneBlockIndexCandidates_marks {r : Reasons} (s : SelectState) :
    Marking r s (s.pruneBlockIndexCandidates env) := by
  rw [pruneBlockIndexCandidates]
  split
  · trivial
  · simp only
    split
    · trivial
    · exact Marks.of_map_eq rfl

theorem connectBlocks_marks (w : Option ℕ) (l : List UInt256) : ∀ s : SelectState,
    Marking env.reasons s ((connectBlocks env w l s).map Prod.snd) := by
  induction l with
  | nil => exact fun s => Marks.refl s
  | cons h rest ih =>
    intro s
    rw [connectBlocks]
    have htip := connectTip_marks env s h
    split
    · next e he => rwa [he] at htip
    · next s₁ hs₁ => rwa [hs₁] at htip
    · next s₁ hs₁ =>
      rw [hs₁] at htip
      have hprune := pruneBlockIndexCandidates_marks env (r := env.reasons) s₁
      split
      · next e he =>
        rw [he] at hprune
        exact Marking.trans htip hprune
      · next s₂ hs₂ =>
        rw [hs₂] at hprune
        have h₂ : Marks env.reasons s s₂ := Marks.trans htip hprune
        split
        · exact h₂
        · exact Marking.trans h₂ (ih s₂)

theorem connectTowards_marks (w : Option ℕ) (m : UInt256) (n : ℕ) : ∀ (k : ℤ) (s : SelectState),
    Marking env.reasons s (connectTowards env w m n k s) := by
  induction n with
  | zero => exact fun _ s => Marks.refl s
  | succ n ih =>
    intro k s
    rw [connectTowards]
    split
    · exact Marks.refl s
    · simp only
      generalize hl : List.reverse _ = l
      have hconnect := connectBlocks_marks env w l s
      split
      · next e he => rwa [he] at hconnect
      · next s₁ hs₁ => rwa [hs₁] at hconnect
      · next s₁ hs₁ =>
        rw [hs₁] at hconnect
        exact Marking.trans hconnect (ih _ s₁)

theorem activateBestChainStep_marks (s : SelectState) (m : UInt256) :
    Marking env.reasons s (s.activateBestChainStep env m) := by
  rw [activateBestChainStep]
  simp only
  have hto := disconnectTo_marks env (r := env.reasons) (s.findFork m)
    s.chainActive.length s
  split
  · next e he => rwa [he] at hto
  · next s₁ hs₁ =>
    rw [hs₁] at hto
    exact Marking.trans hto (connectTowards_marks env _ m _ _ s₁)

/-- The walk of `FindMostWorkChain` splits the path at the block it stops at. -/
theorem scan_split (s : SelectState) (l : List UInt256) : ∀ (above : List UInt256)
    {above' : List UInt256} {test : UInt256}, s.scan above l = .ok (some (above', test)) →
    ∃ rest, above ++ l = above' ++ test :: rest := by
  induction l with
  | nil =>
    intro above above' test h
    exact absurd h (by simp [scan])
  | cons x l ih =>
    intro above above' test h
    rw [scan] at h
    split at h
    · exact absurd h (by simp)
    · split at h
      · simp only [Except.ok.injEq, Option.some.injEq, Prod.mk.injEq] at h
        obtain ⟨rfl, rfl⟩ := h
        exact ⟨l, rfl⟩
      · obtain ⟨rest, hrest⟩ := ih (above ++ [x]) h
        exact ⟨rest, by rw [← hrest, List.append_assoc, List.singleton_append]⟩

/-- What marking a list of blocks does to an entry. -/
theorem index_markAll (l : List UInt256) : ∀ (s : SelectState) (x : UInt256),
    (l.foldl (fun s h => s.modify h .markFailedChild) s).index x =
      if x ∈ l then (s.index x).markFailedChild else s.index x := by
  induction l with
  | nil => simp
  | cons h l ih =>
    intro s x
    rw [List.foldl_cons, ih, s.index_modify]
    by_cases hxh : x = h
    · by_cases hxl : x ∈ l
      · rw [if_pos hxl, if_pos hxh, if_pos (List.mem_cons_of_mem h hxl), hxh]
        rfl
      · rw [if_neg hxl, if_pos hxh, if_pos (by simp [hxh]), hxh]
    · simp [hxh]

theorem mem_markAll (l : List UInt256) : ∀ (s : SelectState), ∀ x ∈ s.mapBlockIndex,
    x ∈ (l.foldl (fun s h => s.modify h .markFailedChild) s).mapBlockIndex := by
  induction l with
  | nil => exact fun _ _ hx => hx
  | cons h l ih =>
    intro s x hx
    apply ih
    show x ∈ (s.modify h .markFailedChild).mapBlockIndex
    rw [SelectState.modify, AList.mem_insert]
    exact .inr hx

/-- In a chain of parents every block but the last is followed by its parent. -/
theorem parent_mem_of_chain {parent : UInt256 → Option UInt256} {above : List UInt256}
    {test x : UInt256} (hchain : (above ++ [test]).IsChain fun x y => parent x = some y)
    (hx : x ∈ above) : ∃ y, parent x = some y ∧ (y ∈ above ∨ y = test) := by
  obtain ⟨l₁, l₂, rfl⟩ := List.append_of_mem hx
  rw [List.append_assoc, List.isChain_append] at hchain
  have htail := hchain.2.1
  cases l₂ with
  | nil =>
    rw [List.singleton_append, List.isChain_cons_cons] at htail
    exact ⟨test, htail.1, .inr rfl⟩
  | cons y l₂ =>
    rw [List.cons_append, List.cons_append, List.isChain_cons_cons] at htail
    exact ⟨y, htail.1, .inl (by simp)⟩

/-- All the blocks above a failed one are marked. -/
theorem markAll_marks {r : Reasons} (hr : r.inherit) (s : SelectState) (above : List UInt256)
    {test : UInt256} (htest : (s.index test).nStatus.failed = true)
    (hchain : (above ++ [test]).IsChain fun x y => s.parent x = some y) :
    Marks r s (above.foldl (fun s h => s.modify h .markFailedChild) s) := by
  have hpprev : ∀ x, ((above.foldl (fun s h => s.modify h .markFailedChild) s).index x).pprev =
      (s.index x).pprev := by
    intro x
    rw [index_markAll]
    split <;> rfl
  have hfailed : ∀ x, ((above.foldl (fun s h => s.modify h .markFailedChild) s).index
      x).nStatus.failed = true ↔ x ∈ above ∨ (s.index x).nStatus.failed = true := by
    intro x
    rw [index_markAll]
    split
    · next hx => simp [hx, CBlockIndex.markFailedChild, BlockStatus.failed]
    · next hx => simp [hx]
  have hdata : ∀ x, ((above.foldl (fun s h => s.modify h .markFailedChild) s).index
      x).nStatus.haveData = (s.index x).nStatus.haveData := by
    intro x
    rw [index_markAll]
    split <;> rfl
  refine ⟨mem_markAll above s, fun x _ => hpprev x, fun x hx => (hfailed x).2 (.inr hx),
    fun x hx => ?_, fun x hx => by rwa [hdata], fun x hx => .inl (by rwa [hdata] at hx),
    fun x p hx => .inl (by rwa [hpprev] at hx)⟩
  rcases (hfailed x).1 hx with hin | hold
  · obtain ⟨y, hy, hor⟩ := parent_mem_of_chain hchain hin
    refine .inr (.inr ⟨hr, y, (hpprev x).trans hy, (hfailed y).2 ?_⟩)
    rcases hor with hor | rfl
    · exact .inl hor
    · exact .inr htest
  · exact .inl hold

theorem eraseAll_map (l : List UInt256) : ∀ s : SelectState,
    (l.foldl eraseCandidate s).mapBlockIndex = s.mapBlockIndex := by
  induction l with
  | nil => exact fun _ => rfl
  | cons h l ih =>
    intro s
    rw [List.foldl_cons, ih]
    rfl

theorem queueAll_map (l : List UInt256) : ∀ s : SelectState,
    (l.foldl (fun (s : SelectState) h => { s with mapBlocksUnlinked :=
      s.mapBlocksUnlinked ++ [((s.index h).pprev.getD 0, h)] }) s).mapBlockIndex =
        s.mapBlockIndex := by
  induction l with
  | nil => exact fun _ => rfl
  | cons h l ih =>
    intro s
    rw [List.foldl_cons, ih]

theorem dropChain_marks {r : Reasons} (hr : r.inherit) (s : SelectState)
    (above : List UInt256) (test : UInt256)
    (hchain : (above ++ [test]).IsChain (fun x y => s.parent x = some y)) :
    Marks r s (s.dropChain above test) := by
  rw [dropChain]
  refine Marks.trans ?_ (.of_map_eq (eraseAll_map _ _))
  cases hfail : (s.index test).nStatus.failed with
  | true =>
    simp only [if_true]
    exact markAll_marks hr s above hfail hchain
  | false =>
    simp only [Bool.false_eq_true, if_false]
    exact .of_map_eq (queueAll_map above s)

theorem findMostWorkChain_marks {r : Reasons} (hr : r.inherit) (n : ℕ) : ∀ s : SelectState,
    Marking r s ((findMostWorkChain env n s).map Prod.snd) := by
  induction n with
  | zero => exact fun _ => trivial
  | succ n ih =>
    intro s
    rw [findMostWorkChain]
    split
    · exact Marks.refl s
    · next m hm =>
      split
      · next e he =>
        cases e with
        | fails s₁ =>
          -- the walk itself never returns false
          exfalso
          generalize (s.path m).takeWhile (fun p => !s.contains p) = l at he
          generalize ([] : List UInt256) = above at he
          induction l generalizing above with
          | nil => exact absurd he (by simp [scan])
          | cons x l ih =>
            rw [scan] at he
            split at he
            · exact absurd he (by simp)
            · split at he
              · exact absurd he (by simp)
              · exact ih _ he
        | abort => trivial
        | crash _ => trivial
        | outOfFuel => trivial
      · exact Marks.refl s
      · next above test hscan =>
        obtain ⟨rest, hrest⟩ := scan_split s _ [] hscan
        refine Marking.trans (dropChain_marks hr s above test ?_) (ih _)
        have hpath : (above ++ [test]) <+: s.path m := by
          refine List.IsPrefix.trans ⟨rest, ?_⟩ (List.takeWhile_prefix fun p => !s.contains p)
          rw [List.append_assoc, List.singleton_append, ← hrest]
          rfl
        obtain ⟨tail, htail⟩ := hpath
        have : (s.path m).IsChain fun x y => s.parent x = some y := ParentTree.isChain_path m
        rw [← htail, List.isChain_append] at this
        exact this.1

/-- **What activation marks.**  `ActivateBestChain` marks the blocks that `ConnectBlock` finds
invalid, and blocks whose parents are marked. -/
theorem activateBestChain_marks (n : ℕ) : ∀ s : SelectState,
    Marking env.reasons s (activateBestChain env n s) := by
  induction n with
  | zero => exact fun _ => trivial
  | succ n ih =>
    intro s
    rw [activateBestChain]
    have hfind := findMostWorkChain_marks env (r := env.reasons) trivial n s
    split
    · next e he => rwa [he] at hfind
    · next s₁ hs₁ => rwa [hs₁] at hfind
    · next m s₁ hs₁ =>
      rw [hs₁] at hfind
      have h₁ : Marks env.reasons s s₁ := hfind
      split
      · exact h₁
      · have hstep := activateBestChainStep_marks env s₁ m
        split
        · next e he =>
          rw [he] at hstep
          exact Marking.trans h₁ hstep
        · next s₂ hs₂ =>
          rw [hs₂] at hstep
          have h₂ : Marks env.reasons s s₂ := h₁.trans hstep
          split
          · split
            · exact h₂
            · trivial
          · exact Marking.trans h₂ (ih s₂)

end Activation

/-! ## What the arrival of a block marks -/

section Arrival

open SelectState

variable (env : SelectEnv) {r : Reasons}

theorem failed_raiseValidity (p : CBlockIndex) (n : ℕ) :
    (p.raiseValidity n).nStatus.failed = p.nStatus.failed ∧
      (p.raiseValidity n).nStatus.haveData = p.nStatus.haveData ∧
      (p.raiseValidity n).pprev = p.pprev := by
  rw [CBlockIndex.raiseValidity]
  split
  · exact ⟨rfl, rfl, rfl⟩
  · split <;> exact ⟨rfl, rfl, rfl⟩

/-- The entry of a new header. -/
theorem index_addToBlockIndex (s : SelectState) (hash x : UInt256) :
    ((s.addToBlockIndex env hash).index x = s.index x ∧ x ≠ hash) ∨
      x = hash ∧ ((s.addToBlockIndex env hash).index x).nStatus.failed = false ∧
      ((s.addToBlockIndex env hash).index x).nStatus.haveData = false ∧
      ((s.addToBlockIndex env hash).index x).pprev =
        if env.hashPrevBlock hash ∈ s.mapBlockIndex then some (env.hashPrevBlock hash)
        else none := by
  by_cases hx : x = hash
  · refine .inr ⟨hx, ?_⟩
    rw [hx, BlockTree.index, addToBlockIndex, AList.lookup_insert, Option.getD_some]
    refine ⟨(failed_raiseValidity _ _).1.trans ?_, (failed_raiseValidity _ _).2.1.trans ?_,
      (failed_raiseValidity _ _).2.2.trans ?_⟩
    · split <;> rfl
    · split <;> rfl
    · split
      · next prev hprev => rw [if_pos (AList.lookup_isSome.1 (by rw [hprev]; rfl))]
      · next hprev => rw [if_neg (AList.lookup_eq_none.1 hprev)]
  · refine .inl ⟨?_, hx⟩
    rw [BlockTree.index, addToBlockIndex, AList.lookup_insert_ne hx, BlockTree.index]

theorem addToBlockIndex_marks (s : SelectState) {hash : UInt256}
    (hnew : hash ∉ s.mapBlockIndex) (hlink : r.link hash (env.hashPrevBlock hash)) :
    Marks r s (s.addToBlockIndex env hash) := by
  have hdefault : s.index hash = {} := by
    rw [BlockTree.index, AList.lookup_eq_none.2 hnew]
    rfl
  refine ⟨fun x hx => ?_, fun x hx => ?_, fun x hx => ?_, fun x hx => ?_, fun x hx => ?_,
    fun x hx => ?_, fun x p hx => ?_⟩
  · rw [addToBlockIndex, AList.mem_insert]
    exact .inr hx
  all_goals rcases index_addToBlockIndex env s hash x with ⟨heq, hne⟩ | ⟨heq, hf, hd, hp⟩
  · rw [heq]
  · exact absurd (heq ▸ hx) hnew
  · rwa [heq]
  · rw [heq, hdefault] at hx
    exact absurd hx (by simp [BlockStatus.failed])
  · exact .inl (heq ▸ hx)
  · rw [hf] at hx
    exact absurd hx (by simp)
  · rwa [heq]
  · rw [heq, hdefault] at hx
    exact absurd hx (by simp)
  · exact .inl (heq ▸ hx)
  · rw [hd] at hx
    exact absurd hx (by simp)
  · exact .inl (heq ▸ hx)
  · refine .inr ?_
    rw [hp] at hx
    split at hx
    · rwa [heq, ← Option.some.inj hx]
    · exact absurd hx (by simp)

theorem linkBlock_marks (s : SelectState) (h : UInt256) : Marks r s (s.linkBlock env h) := by
  have hnumber : Marks r s (s.numberBlock h) := by
    refine Marks.trans (Marks.modify_other (f := fun p =>
      p.number (s.nChainTxPrev h) s.nBlockSequenceId) s h fun p => ?_) (.of_map_eq rfl)
    exact ⟨p.nStatus, rfl, rfl, rfl, rfl⟩
  rw [linkBlock]
  split
  · refine hnumber.trans (.of_map_eq ?_)
    rw [insertCandidate_toBlockTree]
  · exact hnumber

theorem linkBlocks_marks (n : ℕ) : ∀ (queue : List UInt256) (s : SelectState),
    Marks r s (linkBlocks env n queue s) := by
  induction n with
  | zero => exact fun _ s => Marks.refl s
  | succ n ih =>
    intro queue s
    cases queue with
    | nil => exact Marks.refl s
    | cons h queue =>
      rw [linkBlocks]
      refine (linkBlock_marks env s h).trans (Marks.trans ?_ (ih _ _))
      exact .of_map_eq rfl

theorem receivedBlockTransactions_marks (s : SelectState) {hash : UInt256} (hD : r.data hash)
    (nTx : ℕ) : Marks r s (s.receivedBlockTransactions env hash nTx) ∧
      ((s.receivedBlockTransactions env hash nTx).index hash).nStatus.haveData = true := by
  have hreceive : ∀ p : CBlockIndex, (p.receive nTx).pprev = p.pprev ∧
      (p.receive nTx).nStatus.failed = p.nStatus.failed ∧
      (p.receive nTx).nStatus.haveData = true := by
    intro p
    obtain ⟨hfail, hdata, hpprev⟩ := failed_raiseValidity ({ p with
      nTx := nTx, nChainTx := 0, nStatus := { p.nStatus with haveData := true } } : CBlockIndex)
      blockValidTransactions
    exact ⟨hpprev, hfail, hdata⟩
  have h₁ : Marks r s (s.modify hash fun p => p.receive nTx) :=
    Marks.modify s hash (fun p => (hreceive p).1) (fun p => .inl (hreceive p).2.1)
      fun p => .inr ⟨(hreceive p).2.2, hD⟩
  have hdata₁ : ((s.modify hash fun p => p.receive nTx).index hash).nStatus.haveData = true := by
    rw [s.index_modify, if_pos rfl]
    exact (hreceive _).2.2
  -- the rest of the function only links blocks
  have hrest : Marks r (s.modify hash fun p => p.receive nTx)
      (s.receivedBlockTransactions env hash nTx) := by
    rw [receivedBlockTransactions]
    split
    · exact linkBlocks_marks env _ _ _
    · split
      · exact linkBlocks_marks env _ _ _
      · split
        · exact .of_map_eq rfl
        · exact Marks.refl _
  exact ⟨h₁.trans hrest, hrest.keepData hash hdata₁⟩

/-- The arrival of a block marks that block, when its checks find it invalid and not corrupted,
and has its data only if it is accepted. -/
def Arrival.reasons (a : Arrival) (accepted : Prop) : Reasons where
  failed h := h = a.hash ∧ a.checkBlock = .invalid false
  inherit := False
  data h := h = a.hash ∧ accepted
  link h p := h = a.hash ∧ p = env.hashPrevBlock h

theorem acceptBlockHeader_marks (s : SelectState) (a : Arrival) (accepted : Prop) :
    Marking (a.reasons env accepted) s (s.acceptBlockHeader env a) := by
  rw [acceptBlockHeader]
  split
  · split
    · exact Marks.refl s
    · exact Marks.refl s
  · next hnone =>
    split
    · exact addToBlockIndex_marks env s (AList.lookup_eq_none.1 hnone) ⟨rfl, rfl⟩
    · exact Marks.refl s

/-- **What the arrival of a block marks.**  `AcceptBlock` marks the block that arrived, when its
checks find it invalid and not corrupted, and stores the data of no other block. -/
theorem acceptBlock_marks (s : SelectState) (a : Arrival) :
    match s.acceptBlock env a with
    | .ok s' => Marks (a.reasons env True) s s'
    | .error (.fails s') => Marks (a.reasons env False) s s'
    | .error _ => True := by
  rw [SelectState.acceptBlock]
  by_cases hparent : (!s.hasGoodParent env a.hash) = true
  · rw [if_pos hparent]
    exact Marks.refl s
  rw [if_neg hparent]
  by_cases hwork : a.hash ≠ env.hashGenesisBlock ∧ (!a.checkWork) = true
  · rw [if_pos hwork]
    exact Marks.refl s
  · rw [if_neg hwork]
    have hheader := fun accepted => acceptBlockHeader_marks env s a accepted
    cases hs₁ : s.acceptBlockHeader env a with
    | error e =>
      rw [hs₁] at hheader
      cases e with
      | fails s₁ => exact hheader False
      | abort => trivial
      | crash _ => trivial
      | outOfFuel => trivial
    | ok s₁ =>
      rw [hs₁] at hheader
      have h₁ : ∀ accepted, Marks (a.reasons env accepted) s s₁ := hheader
      simp only
      by_cases hdata : (s₁.index a.hash).nStatus.haveData = true
      · rw [if_pos hdata]
        exact h₁ True
      · rw [if_neg hdata]
        cases hv : a.checkBlock with
        | ok =>
          simp only
          by_cases hstored : a.stored = true
          · rw [if_pos hstored]
            exact (h₁ True).trans (receivedBlockTransactions_marks env (r := a.reasons env True) s₁
              ⟨rfl, trivial⟩ a.nTx).1
          · rw [if_neg hstored]
            exact h₁ False
        | invalid corruption =>
          cases corruption with
          | true => exact h₁ False
          | false =>
            refine (h₁ False).trans (Marks.modify (f := .markFailedValid) _ a.hash
              (fun _ => rfl) (fun p => .inr ?_) fun p => .inl rfl)
            exact ⟨by simp [CBlockIndex.markFailedValid, BlockStatus.failed], rfl, hv⟩
        | error => exact h₁ False
        | abort => trivial

variable {env} in
/-- A block that is accepted has its data. -/
theorem haveData_acceptBlock {s s' : SelectState} {a : Arrival}
    (h : s.acceptBlock env a = .ok s') : (s'.index a.hash).nStatus.haveData = true := by
  rw [SelectState.acceptBlock] at h
  split at h
  · exact absurd h (by simp)
  · split at h
    · exact absurd h (by simp)
    · split at h
      · exact absurd h (by simp)
      · next s₁ hs₁ =>
        split at h
        · next hdata =>
          cases h
          exact hdata
        · split at h
          · exact absurd h (by simp)
          · exact absurd h (by simp)
          · exact absurd h (by simp)
          · exact absurd h (by simp)
          · split at h
            · cases h
              exact (receivedBlockTransactions_marks env (r := a.reasons env True) s₁
                ⟨rfl, trivial⟩ a.nTx).2
            · exact absurd h (by simp)

end Arrival

end FairCoin
