import FairCoin.SelectionMoves

/-!
# Activation ends, on the best candidate

What the loop of `ActivateBestChain` does, round by round.

* `Ends` — a call that neither crashes nor runs out of fuel: it returns, or returns false in a
  state reached by moves, or meets a system error.
* `findMostWorkChain_ends`, `disconnectTo_ends`, `connectBlocks_ends`, `connectTowards_ends` — the
  parts of a round.
* `rank` — every round that is not the last marks a block or raises the work of the tip.
* `activateBestChain_ends` — **activation ends**, and the tip is then as good as every candidate.
-/

namespace FairCoin

open Store SelectState

/-- Any number of moves. -/
abbrev Moves (env : SelectEnv) : SelectState → SelectState → Prop :=
  Relation.ReflTransGen (Move env)

/-! ## What moves keep -/

section Moves

variable {env : SelectEnv} {s s' : SelectState}

/-- What every move keeps, or changes in one direction only. -/
structure Progress (s s' : SelectState) : Prop extends SameData s s' where
  failed : ∀ x, (s.index x).nStatus.failed = true → (s'.index x).nStatus.failed = true
  candidates : s'.setBlockIndexCandidates.Sublist s.setBlockIndexCandidates
  nConnects : s.nConnects ≤ s'.nConnects

theorem Progress.refl (s : SelectState) : Progress s s :=
  ⟨SameData.of_map_eq rfl rfl, fun _ h => h, List.Sublist.refl _, le_rfl⟩

theorem Progress.trans {s'' : SelectState} (h₁ : Progress s s') (h₂ : Progress s' s'') :
    Progress s s'' where
  toSameData := h₁.toSameData.trans h₂.toSameData
  failed x hx := h₂.failed x (h₁.failed x hx)
  candidates := h₂.candidates.trans h₁.candidates
  nConnects := h₁.nConnects.trans h₂.nConnects

/-- A mark that adds a flag. -/
theorem Progress.modify {h : UInt256} (hmem : h ∈ s.mapBlockIndex)
    {f : CBlockIndex → CBlockIndex} (hf : ∀ p, ∃ st : BlockStatus, f p = { p with nStatus := st } ∧
      st.haveData = p.nStatus.haveData ∧ (p.nStatus.failed = true → st.failed = true)) :
    Progress s (s.modify h f) := by
  refine ⟨SameData.modify s hmem fun p => ?_, fun x hx => ?_, List.Sublist.refl _, le_rfl⟩
  · obtain ⟨st, hst, hdata, -⟩ := hf p
    exact ⟨st, hst, hdata⟩
  · rw [s.index_modify]
    split
    · next hxh =>
      obtain ⟨st, hst, -, hfail⟩ := hf (s.index h)
      rw [hst]
      exact hfail (hxh ▸ hx)
    · exact hx

theorem Move.progress (hmove : Move env s s') : Progress s s' := by
  cases hmove with
  | mark h hmem hoff hfail =>
    refine Progress.modify hmem (f := .markFailedChild) fun p =>
      ⟨{ p.nStatus with failedChild := true }, rfl, rfl, fun _ => ?_⟩
    simp [BlockStatus.failed]
  | erase h hfail =>
    exact ⟨SameData.of_map_eq rfl rfl, fun _ hx => hx, List.filter_sublist, le_rfl⟩
  | reject h hmem hp hok hverdict =>
    have htick : Progress s { s with nConnects := s.nConnects + 1 } :=
      ⟨SameData.of_map_eq rfl rfl, fun _ hx => hx, List.Sublist.refl _, Nat.le_succ _⟩
    refine htick.trans (Progress.modify (s := { s with nConnects := s.nConnects + 1 }) hmem fun p =>
      ⟨{ p.nStatus with failedValid := true }, rfl, rfl, fun _ => ?_⟩)
    simp [BlockStatus.failed]
  | connect h hmem hp hok hlink hverdict =>
    refine ⟨(s.sameData_connected env hmem).trans (SameData.of_map_eq rfl rfl), fun x hx => ?_,
      ?_, ?_⟩
    · exact (s.failed_connected env h x).trans hx
    · refine List.filter_sublist.trans ?_
      rw [connected, setTip_candidates]
      exact List.Sublist.refl _
    · show s.nConnects ≤ (s.connected env h).nConnects
      rw [connected, (setTip_counters _ _).1]
      exact Nat.le_succ s.nConnects
  | disconnect tip htip hne =>
    refine ⟨s.sameData_disconnected tip, fun x hx => ?_, ?_, ?_⟩
    · rwa [s.index_disconnected]
    · rw [disconnected, setTip_candidates]
    · rw [disconnected, (setTip_counters _ _).1]
  | tick n m hle =>
    exact ⟨SameData.of_map_eq rfl rfl, fun _ hx => hx, List.Sublist.refl _, hle⟩

theorem Moves.progress (h : Moves env s s') : Progress s s' := by
  induction h with
  | refl => exact Progress.refl s
  | tail _ hmove ih => exact ih.trans hmove.progress

/-- Moves keep the invariant. -/
theorem SelectInv.moves (hI : SelectInv env s) (h : Moves env s s') : SelectInv env s' := by
  induction h with
  | refl => exact hI
  | tail _ hmove ih => exact ih.move hmove

end Moves

/-! ## Outcomes -/

/-- The call does not crash and does not run out of fuel: it returns what `P` says, or returns
false in a state reached by moves, or meets a system error. -/
def Ends {α : Type} (env : SelectEnv) (s : SelectState) (r : Except Stop α) (P : α → Prop) : Prop :=
  match r with
  | .ok a => P a
  | .error (.fails s') => Moves env s s'
  | .error .abort => True
  | .error (.crash _) => False
  | .error .outOfFuel => False

theorem Ends.cases {α : Type} {env : SelectEnv} {s : SelectState} {r : Except Stop α}
    {P : α → Prop} (h : Ends env s r P) : (∃ a, r = .ok a ∧ P a) ∨
      (∃ s', r = .error (.fails s') ∧ Moves env s s') ∨ r = .error .abort := by
  match r, h with
  | .ok a, h => exact .inl ⟨a, rfl, h⟩
  | .error (.fails s'), h => exact .inr (.inl ⟨s', rfl, h⟩)
  | .error .abort, _ => exact .inr (.inr rfl)

theorem Ends.mono {α : Type} {env : SelectEnv} {s : SelectState} {r : Except Stop α}
    {P Q : α → Prop} (h : Ends env s r P) (hPQ : ∀ a, P a → Q a) : Ends env s r Q := by
  rcases h.cases with ⟨a, rfl, ha⟩ | ⟨s', rfl, hs'⟩ | rfl
  · exact hPQ a ha
  · exact hs'
  · trivial

/-- The outcome of a call made after some moves. -/
theorem Ends.after {α : Type} {env : SelectEnv} {s s₁ : SelectState} {r : Except Stop α}
    {P : α → Prop} (h : Ends env s₁ r P) (hmoves : Moves env s s₁) : Ends env s r P := by
  rcases h.cases with ⟨a, rfl, ha⟩ | ⟨s', rfl, hs'⟩ | rfl
  · exact ha
  · exact hmoves.trans hs'
  · trivial

/-! ## The most-work chain -/

section MostWork

variable {env : SelectEnv} {s : SelectState}

/-- The walk from a candidate meets no block without data: it finds the first failed block. -/
theorem scan_spec (hI : SelectInv env s) (l above : List UInt256)
    (hl : ∀ x ∈ l, x ∈ s.mapBlockIndex ∧ (s.index x).nChainTx ≠ 0) :
    (s.scan above l = .ok none ∧ ∀ x ∈ l, (s.index x).nStatus.failed = false) ∨
      ∃ pre test post, l = pre ++ test :: post ∧
        s.scan above l = .ok (some (above ++ pre, test)) ∧
        (s.index test).nStatus.failed = true := by
  induction l generalizing above with
  | nil => exact .inl ⟨rfl, by simp⟩
  | cons x l ih =>
    obtain ⟨hmem, hlink⟩ := hl x (by simp)
    have hdata := hI.haveData_of_linked hmem hlink
    rw [SelectState.scan, if_neg fun h => hlink h.1]
    cases hfail : (s.index x).nStatus.failed with
    | true =>
      refine .inr ⟨[], x, l, rfl, ?_, hfail⟩
      rw [if_pos (by simp), List.append_nil]
    | false =>
      rw [if_neg (by simp [hdata])]
      rcases ih (above ++ [x]) fun y hy => hl y (by simp [hy]) with
        ⟨hscan, hall⟩ | ⟨pre, test, post, hsplit, hscan, htest⟩
      · refine .inl ⟨hscan, fun y hy => ?_⟩
        rcases List.mem_cons.1 hy with rfl | hy
        · exact hfail
        · exact hall y hy
      · refine .inr ⟨x :: pre, test, post, by rw [hsplit]; rfl, ?_, htest⟩
        rw [hscan, List.append_assoc]
        rfl

/-- The blocks above a failed block are marked. -/
theorem moves_markAll (above : List UInt256) {test : UInt256} :
    ∀ (s : SelectState), SelectInv env s → (s.index test).nStatus.failed = true →
      (∀ x ∈ above, x ∈ s.mapBlockIndex ∧ x ∉ s.chainActive ∧ test ∈ s.path x) →
      ∃ s', above.foldl (fun s h => s.modify h .markFailedChild) s = s' ∧ Moves env s s' ∧
        s'.chainActive = s.chainActive ∧ s'.setBlockIndexCandidates = s.setBlockIndexCandidates ∧
        ∀ x ∈ above, (s'.index x).nStatus.failed = true := by
  induction above with
  | nil => exact fun s _ _ _ => ⟨s, rfl, .refl, rfl, rfl, by simp⟩
  | cons h above ih =>
    intro s hI htest habove
    obtain ⟨hmem, hoff, hpath⟩ := habove h (by simp)
    have hmove : Move env s (s.modify h .markFailedChild) := .mark s h hmem hoff ⟨test, hpath, htest⟩
    have hprog := hmove.progress
    obtain ⟨s', hs', hmoves, hchain, hcand, hfailed⟩ :=
      ih (s.modify h .markFailedChild) (hI.move hmove) (hprog.failed test htest) fun x hx => by
        obtain ⟨hx₁, hx₂, hx₃⟩ := habove x (by simp [hx])
        exact ⟨(hprog.mem x).2 hx₁, hx₂, by rwa [hprog.path]⟩
    refine ⟨s', hs', .head hmove hmoves, hchain, hcand, fun x hx => ?_⟩
    rcases List.mem_cons.1 hx with rfl | hx
    · apply hmoves.progress.failed
      rw [s.index_modify, if_pos rfl]
      simp [CBlockIndex.markFailedChild, BlockStatus.failed]
    · exact hfailed x hx

variable (env) in
/-- Failed blocks are dropped from the candidates. -/
theorem moves_eraseAll (l : List UInt256) : ∀ (s : SelectState),
    (∀ x ∈ l, (s.index x).nStatus.failed = true) →
    Moves env s (l.foldl eraseCandidate s) ∧
      (l.foldl eraseCandidate s).chainActive = s.chainActive ∧
      ∀ x ∈ l, x ∉ (l.foldl eraseCandidate s).setBlockIndexCandidates := by
  induction l with
  | nil => exact fun s _ => ⟨.refl, rfl, by simp⟩
  | cons h l ih =>
    intro s hl
    obtain ⟨hmoves, hchain, hnot⟩ := ih (s.eraseCandidate h) fun x hx => hl x (by simp [hx])
    refine ⟨.head (.erase s h (hl h (by simp))) hmoves, hchain, fun x hx => ?_⟩
    rcases List.mem_cons.1 hx with rfl | hx
    · intro hmem
      have := hmoves.progress.candidates.subset hmem
      exact (s.mem_eraseCandidate.1 this).2 rfl
    · exact hnot x hx

/-- A chain with a failed block is marked, and its blocks are no candidates any more. -/
theorem dropChain_moves (hI : SelectInv env s) (above : List UInt256) {test : UInt256}
    (htest : (s.index test).nStatus.failed = true)
    (habove : ∀ x ∈ above, x ∈ s.mapBlockIndex ∧ x ∉ s.chainActive ∧ test ∈ s.path x) :
    Moves env s (s.dropChain above test) ∧
      (s.dropChain above test).chainActive = s.chainActive ∧
      ∀ x ∈ above ++ [test], x ∉ (s.dropChain above test).setBlockIndexCandidates := by
  obtain ⟨s', hs', hmoves, hchain, hcand, hfailed⟩ := moves_markAll above s hI htest habove
  have hdrop : s.dropChain above test = (above ++ [test]).foldl eraseCandidate s' := by
    simp only [dropChain, htest, if_true, hs']
  obtain ⟨hmoves', hchain', hnot⟩ := moves_eraseAll env (above ++ [test]) s' fun x hx => by
    rcases List.mem_append.1 hx with hx | hx
    · exact hfailed x hx
    · rw [List.mem_singleton.1 hx]
      exact hmoves.progress.failed test htest
  rw [hdrop]
  exact ⟨hmoves.trans hmoves', hchain'.trans hchain, hnot⟩

/-- The blocks of a path that are off the active chain come before all others. -/
theorem SelectInv.mem_offChain (hI : SelectInv env s) {m x : UInt256} (hm : m ∈ s.mapBlockIndex)
    (hx : x ∈ s.path m) (hoff : x ∉ s.chainActive) :
    x ∈ (s.path m).takeWhile fun p => !s.contains p := by
  obtain ⟨tip, htipMem, -, hchain, -⟩ := hI.exists_tip
  have hsplit := (List.takeWhile_append_dropWhile (p := fun p => !s.contains p)
    (l := s.path m)).symm
  rw [hsplit] at hx
  rcases List.mem_append.1 hx with hx | hx
  · exact hx
  · exfalso
    cases hdrop : (s.path m).dropWhile fun p => !s.contains p with
    | nil =>
      rw [hdrop] at hx
      exact absurd hx (by simp)
    | cons fork rest =>
      rw [hdrop] at hx hsplit
      have hforkPath : s.path fork = fork :: rest :=
        ParentTree.path_of_eq_append hI.tree.levelled hm hsplit
      have hforkMem : fork ∈ s.mapBlockIndex :=
        ParentTree.mem_of_mem_path hI.tree.levelled hm fork (by rw [← BlockTree.path, hsplit]; simp)
      have hstop := List.head?_dropWhile_not (fun p => !s.contains p) (s.path m)
      rw [hdrop] at hstop
      have hfork : fork ∈ s.path tip := by
        rw [← List.mem_reverse, ← hchain, ← hI.contains_iff hforkMem]
        simpa using hstop
      apply hoff
      rw [hchain, List.mem_reverse]
      exact ParentTree.path_trans hI.tree.levelled htipMem fork hfork x (by
        rw [← BlockTree.path, hforkPath]
        exact hx)

/-- **The most-work chain.**  `FindMostWorkChain` ends.  It answers with a greatest candidate, and
no block between it and the active chain is failed; or there is no candidate. -/
theorem findMostWorkChain_spec (k : ℕ) : ∀ (s : SelectState), SelectInv env s →
    s.setBlockIndexCandidates.length ≤ k →
    ∃ r s', (∀ n, k < n → findMostWorkChain env n s = .ok (r, s')) ∧ Moves env s s' ∧
      s'.chainActive = s.chainActive ∧ (r = none → s'.setBlockIndexCandidates = []) ∧
      ∀ m, r = some m → m ∈ s'.setBlockIndexCandidates ∧
        (∀ c ∈ s'.setBlockIndexCandidates, s'.less env m c = false) ∧
        ∀ x ∈ s'.path m, x ∉ s'.chainActive → (s'.index x).nStatus.failed = false := by
  induction k with
  | zero =>
    intro s hI hlen
    have hnil : s.setBlockIndexCandidates = [] := List.length_eq_zero_iff.1 (by omega)
    have hbest : s.best env = none := by rw [best, hnil]; rfl
    refine ⟨none, s, fun n hn => ?_, .refl, rfl, fun _ => hnil, by simp⟩
    obtain ⟨n, rfl⟩ : ∃ m, n = m + 1 := ⟨n - 1, by omega⟩
    rw [findMostWorkChain, hbest]
  | succ k ih =>
    intro s hI hlen
    cases hbest : s.best env with
    | none =>
      refine ⟨none, s, fun n hn => ?_, .refl, rfl, fun _ => best_eq_none hbest, by simp⟩
      obtain ⟨n, rfl⟩ : ∃ m, n = m + 1 := ⟨n - 1, by omega⟩
      rw [findMostWorkChain, hbest]
    | some m =>
      obtain ⟨hm, hmax⟩ := best_spec hbest
      obtain ⟨hmMem, hmLink, -⟩ := hI.candidates m hm
      have hpathMem := ParentTree.mem_of_mem_path hI.tree.levelled hmMem
      have hoff : ∀ x ∈ (s.path m).takeWhile (fun p => !s.contains p),
          x ∈ s.mapBlockIndex ∧ (s.index x).nChainTx ≠ 0 ∧ x ∉ s.chainActive := by
        intro x hx
        have hxp := (List.takeWhile_sublist _).subset hx
        have hxm := hpathMem x hxp
        refine ⟨hxm, hI.linked_path hmMem hmLink x hxp, fun hin => ?_⟩
        have := List.mem_takeWhile_imp hx
        rw [(hI.contains_iff hxm).2 hin] at this
        exact absurd this (by simp)
      rcases scan_spec hI _ [] fun x hx => ⟨(hoff x hx).1, (hoff x hx).2.1⟩ with
        ⟨hscan, hall⟩ | ⟨pre, test, post, hsplit, hscan, htest⟩
      · refine ⟨some m, s, fun n hn => ?_, .refl, rfl, by simp, ?_⟩
        · obtain ⟨n, rfl⟩ : ∃ m, n = m + 1 := ⟨n - 1, by omega⟩
          rw [findMostWorkChain, hbest]
          simp only [hscan]
        · rintro _ ⟨⟩
          exact ⟨hm, hmax, fun x hx hxoff => hall x (hI.mem_offChain hmMem hx hxoff)⟩
      · -- the chain is marked up to the candidate, which is one candidate less
        have hpath : s.path m = pre ++ test ::
            (post ++ (s.path m).dropWhile fun p => !s.contains p) := by
          conv_lhs => rw [← List.takeWhile_append_dropWhile (p := fun p => !s.contains p)
            (l := s.path m), hsplit]
          simp
        obtain ⟨hmoves, hchain, hnot⟩ := dropChain_moves hI pre htest fun x hx => by
          obtain ⟨hx₁, -, hx₃⟩ := hoff x (by rw [hsplit]; simp [hx])
          refine ⟨hx₁, hx₃, ?_⟩
          obtain ⟨l₁, l₂, hl⟩ := List.append_of_mem hx
          rw [hl, List.append_assoc, List.cons_append] at hpath
          rw [BlockTree.path, ParentTree.path_of_eq_append hI.tree.levelled hmMem hpath]
          simp
        have hhead : m ∈ pre ++ [test] := by
          have hfirst : (s.path m).head? = some m := ParentTree.head?_path m
          rw [hpath] at hfirst
          cases pre with
          | nil =>
            simp only [List.nil_append, List.head?_cons, Option.some.injEq] at hfirst
            simp [hfirst]
          | cons y pre =>
            simp only [List.cons_append, List.head?_cons, Option.some.injEq] at hfirst
            simp [hfirst]
        have hsub := hmoves.progress.candidates
        have hlt : (s.dropChain pre test).setBlockIndexCandidates.length <
            s.setBlockIndexCandidates.length := by
          refine lt_of_le_of_ne hsub.length_le fun heq => hnot m hhead ?_
          rw [hsub.eq_of_length heq]
          exact hm
        obtain ⟨r, s', hfind, hmoves', hchain', hnone, hsome⟩ :=
          ih (s.dropChain pre test) (hI.moves hmoves) (by omega)
        refine ⟨r, s', fun n hn => ?_, hmoves.trans hmoves', hchain'.trans hchain, hnone, hsome⟩
        obtain ⟨n, rfl⟩ : ∃ m, n = m + 1 := ⟨n - 1, by omega⟩
        rw [findMostWorkChain, hbest]
        simp only [hscan, List.nil_append]
        exact hfind n (by omega)

end MostWork

/-! ## Down to the fork -/

section Disconnect

variable {env : SelectEnv} {s : SelectState}

/-- `DisconnectTip` takes off the tip, or fails without effect; genesis stays. -/
theorem selectDisconnect_cases (hI : TipInv env s) {tip : UInt256} (htip : s.tipHash = some tip) :
    (tip ≠ env.hashGenesisBlock ∧ env.disconnectBlock s.nDisconnects tip = .ok ∧
      s.disconnectTip env = .ok (s.disconnected tip)) ∨
    ((tip = env.hashGenesisBlock ∨ env.disconnectBlock s.nDisconnects tip ≠ .ok ∧
        env.disconnectBlock s.nDisconnects tip ≠ .abort) ∧
      ∃ s', s.disconnectTip env = .error (.fails s') ∧ Move env s s') ∨
    s.disconnectTip env = .error .abort := by
  obtain ⟨tip', hmem, htip', -, hcoins⟩ := hI.exists_tip
  cases htip.symm.trans htip'
  have hundo := (hI.active tip (TipInv.tip_mem_chain htip)).2
  rw [SelectState.disconnectTip, htip]
  simp only
  rw [if_neg (by rw [hcoins]; simp)]
  by_cases hg : tip = env.hashGenesisBlock
  · refine .inr (.inl ⟨.inl hg, s, ?_, .tick s s.nConnects s.nDisconnects le_rfl⟩)
    rw [hg, hI.genesis_undo]
    rfl
  · rw [(hundo hg).1, if_neg (by simp)]
    have htick : Move env s { s with nDisconnects := s.nDisconnects + 1 } :=
      .tick s s.nConnects (s.nDisconnects + 1) le_rfl
    cases hverdict : env.disconnectBlock s.nDisconnects tip with
    | ok => exact .inl ⟨hg, rfl, rfl⟩
    | invalid c => exact .inr (.inl ⟨.inr (by simp), _, rfl, htick⟩)
    | error => exact .inr (.inl ⟨.inr (by simp), _, rfl, htick⟩)
    | abort => exact .inr (.inr rfl)

/-- Disconnecting down to a block of the active chain. -/
theorem disconnectTo_ends {fork : UInt256} (n : ℕ) : ∀ (s : SelectState), SelectInv env s →
    fork ∈ s.chainActive → s.chainActive.length ≤ n →
    Ends env s (disconnectTo env (some fork) n s) fun s' => Moves env s s' ∧
      s'.tipHash = some fork ∧ (∀ x, s'.index x = s.index x) ∧
      s'.setBlockIndexCandidates = s.setBlockIndexCandidates := by
  induction n with
  | zero =>
    intro s hI hfork hlen
    have hnil : s.chainActive = [] := List.length_eq_zero_iff.1 (by omega)
    rw [hnil] at hfork
    exact absurd hfork (by simp)
  | succ n ih =>
    intro s hI hfork hlen
    obtain ⟨tip, hmem, htip, hchain, -⟩ := hI.exists_tip
    rw [disconnectTo]
    by_cases hstop : tip = fork
    · rw [if_pos (.inr (by rw [htip, hstop]))]
      exact ⟨.refl, by rw [htip, hstop], fun _ => rfl, rfl⟩
    · rw [if_neg (by rw [htip]; simp [hstop])]
      rcases selectDisconnect_cases hI.toTipInv htip with
        ⟨hg, -, hdisc⟩ | ⟨-, s', hdisc, hmove⟩ | hdisc
      · -- the fork is still in the chain below the tip
        rw [hdisc]
        have hmove : Move env s (s.disconnected tip) := .disconnect s tip htip hg
        obtain ⟨p, -, hp, hpath, -⟩ := hI.exists_pprev_tip htip hg
        have hnewChain := hI.chain_disconnected htip hp
        have hfork' : fork ∈ (s.disconnected tip).chainActive := by
          rw [hchain, hpath, List.reverse_cons, List.mem_append, List.mem_singleton] at hfork
          rw [hnewChain]
          exact hfork.resolve_right (Ne.symm hstop)
        have hlen' : (s.disconnected tip).chainActive.length ≤ n := by
          rw [hchain, hpath] at hlen
          rw [hnewChain]
          simp only [List.length_reverse, List.length_cons] at hlen ⊢
          omega
        refine ((ih (s.disconnected tip) (hI.move hmove) hfork' hlen').after (.single hmove)).mono ?_
        rintro s' ⟨hmoves, htip', hindex, hcand⟩
        refine ⟨.head hmove hmoves, htip', fun x => ?_, ?_⟩
        · rw [hindex, s.index_disconnected]
        · rw [hcand, disconnected, setTip_candidates]
      · rw [hdisc]
        exact .single hmove
      · rw [hdisc]
        trivial

end Disconnect

/-! ## Up to the most-work block -/

section Connect

variable {env : SelectEnv} {s : SelectState}

/-- The call that connects a block never finds it corrupted from here on. -/
def NoCorruption (env : SelectEnv) (s : SelectState) : Prop :=
  ∀ n ≥ s.nConnects, ∀ h ∈ s.mapBlockIndex, env.connectBlock n h ≠ .invalid true

theorem NoCorruption.progress {s' : SelectState} (h : NoCorruption env s) (hp : Progress s s') :
    NoCorruption env s' :=
  fun n hn x hx => h n (hp.nConnects.trans hn) x ((hp.mem x).1 hx)

/-- A block on top of the tip that can be connected. -/
structure Connectable (s : SelectState) (h : UInt256) : Prop where
  mem : h ∈ s.mapBlockIndex
  failed : (s.index h).nStatus.failed = false
  linked : (s.index h).nChainTx ≠ 0

/-- The blocks of a list stand on each other, the first one on `x`. -/
def Ascends (t : BlockTree) : UInt256 → List UInt256 → Prop
  | _, [] => True
  | x, h :: l => (t.index h).pprev = some x ∧ Ascends t h l

theorem SameShape.ascends {t t' : BlockTree} (h : SameShape t t') (x : UInt256)
    (l : List UInt256) : Ascends t' x l ↔ Ascends t x l := by
  induction l generalizing x with
  | nil => exact .rfl
  | cons y l ih => rw [Ascends, Ascends, h.pprev, ih]

/-- What `ConnectTip` does to a block that can be connected. -/
theorem selectConnect_cases (hI : SelectInv env s) (hC : NoCorruption env s) {h tip : UInt256}
    (htip : s.tipHash = some tip) (hp : (s.index h).pprev = some tip) (hh : Connectable s h) :
    (env.connectBlock s.nConnects h = .ok ∧
      s.connectTip env h = .ok (true, s.connected env h)) ∨
    (env.connectBlock s.nConnects h = .invalid false ∧
      s.connectTip env h = .ok (false, (s.rejected h).eraseCandidate h)) ∨
    (∃ s', s.connectTip env h = .error (.fails s') ∧ Move env s s') ∨
      s.connectTip env h = .error .abort := by
  obtain ⟨tip', hmem, htip', -, hcoins⟩ := hI.exists_tip
  cases htip.symm.trans htip'
  rw [SelectState.connectTip, if_neg (by rw [hp, htip]; simp)]
  cases hverdict : env.connectBlock s.nConnects h with
  | ok =>
    refine .inl ⟨rfl, ?_⟩
    simp only
    rw [if_neg (by rw [hp, hcoins]; simp)]
    rfl
  | invalid c =>
    cases c with
    | true => exact absurd hverdict (hC s.nConnects le_rfl h hh.mem)
    | false => exact .inr (.inl ⟨rfl, rfl⟩)
  | error =>
    exact .inr (.inr (.inl ⟨_, rfl, .tick s (s.nConnects + 1) s.nDisconnects (Nat.le_succ _)⟩))
  | abort => exact .inr (.inr (.inr rfl))

/-- A rejected block is marked. -/
theorem failed_rejected (s : SelectState) (h : UInt256) :
    (((s.rejected h).eraseCandidate h).index h).nStatus.failed = true := by
  show (((s.rejected h)).index h).nStatus.failed = true
  rw [rejected, index_modify, if_pos rfl]
  simp [CBlockIndex.markFailedValid, BlockStatus.failed]

variable (env) in
/-- Pruning keeps a candidate above the tip. -/
theorem pruneBlockIndexCandidates_eq {tip m : UInt256} (htip : s.tipHash = some tip)
    (hm : m ∈ s.setBlockIndexCandidates) (hless : s.less env m tip = false) :
    s.pruneBlockIndexCandidates env = .ok (s.pruned env) ∧
      m ∈ (s.pruned env).setBlockIndexCandidates := by
  have hkept : m ∈ s.setBlockIndexCandidates.filter fun c => !s.less env c tip :=
    List.mem_filter.2 ⟨hm, by simp [hless]⟩
  have hpruned : (s.pruned env).setBlockIndexCandidates =
      s.setBlockIndexCandidates.filter fun c => !s.less env c tip := by
    simp only [pruned, htip, Option.all_some]
  rw [pruneBlockIndexCandidates, htip]
  simp only
  rw [if_neg (List.ne_nil_of_mem hkept), hpruned]
  refine ⟨?_, hkept⟩
  rw [← hpruned]
  rfl

/-- The blocks of a list are connected one on the other.  The call stops early only at a block
that is found invalid, or when the tip has more work than before. -/
theorem connectBlocks_ends {m : UInt256} {w : ℕ} (l : List UInt256) : ∀ (s : SelectState)
    (tip : UInt256), SelectInv env s → NoCorruption env s → s.tipHash = some tip →
    Ascends s.toBlockTree tip l → m ∈ s.setBlockIndexCandidates →
    (∀ h ∈ l, Connectable s h ∧ h ∈ s.path m) →
    Ends env s (connectBlocks env (some w) l s) fun r => Moves env s r.2 ∧
      (r.1 = true → r.2.tipHash = (l.getLast?).or (some tip) ∧ m ∈ r.2.setBlockIndexCandidates ∧
        ∀ x, (r.2.index x).nStatus.failed = (s.index x).nStatus.failed) ∧
      (r.1 = false →
        (∃ h ∈ l, (s.index h).nStatus.failed = false ∧ (r.2.index h).nStatus.failed = true) ∨
        ∃ tip', r.2.tipHash = some tip' ∧ w < (r.2.index tip').nChainWork) := by
  induction l with
  | nil =>
    intro s tip hI hC htip _ hm _
    exact ⟨.refl, fun _ => ⟨htip, hm, fun _ => rfl⟩, by simp⟩
  | cons h l ih =>
    intro s tip hI hC htip hasc hm hl
    obtain ⟨hh, hpath⟩ := hl h (by simp)
    obtain ⟨hp, hasc'⟩ := hasc
    rw [connectBlocks]
    rcases selectConnect_cases hI hC htip hp hh with ⟨hok, hconn⟩ | ⟨hinv, hconn⟩ |
      ⟨s', hconn, hmove⟩ | hconn
    · rw [hconn]
      simp only
      have hmove : Move env s ((s.connected env h).pruned env) :=
        .connect s h hh.mem (hp.trans htip.symm) hh.failed hh.linked hok
      have hI' := hI.move hmove
      have hprog := hmove.progress
      have htip' : (s.connected env h).tipHash = some h :=
        SelectState.tipHash_of_chain (hI.chain_connected hh.mem)
      have hd := s.sameData_connected env hh.mem
      have hmMem := (hI.candidates m hm).1
      have hless : (s.connected env h).less env m h = false := by
        rw [hd.less]
        by_cases hmh : m = h
        · rw [hmh]
          exact less_irrefl h
        · have hlt := hI.work_lt_of_mem_path hmMem (hI.candidates m hm).2.1 h hpath (Ne.symm hmh)
          rw [Bool.eq_false_iff, Ne, less_iff]
          omega
      obtain ⟨hprune, hmPruned⟩ := pruneBlockIndexCandidates_eq env htip'
        (by rw [connected, setTip_candidates]; exact hm) hless
      rw [hprune]
      simp only [Option.all_some, decide_eq_true_eq]
      split
      · next hbetter =>
        exact ⟨.single hmove, by simp, fun _ => .inr ⟨h, htip', hbetter⟩⟩
      · have hflags : ∀ x, (((s.connected env h).pruned env).index x).nStatus.failed =
            (s.index x).nStatus.failed := s.failed_connected env h
        refine ((ih _ h hI' (hC.progress hprog) htip'
          ((hprog.toSameShape.ascends h l).2 hasc') hmPruned fun y hy => ?_).after
            (.single hmove)).mono ?_
        · obtain ⟨hy₁, hy₂⟩ := hl y (by simp [hy])
          refine ⟨⟨(hprog.mem y).2 hy₁.mem, (hflags y).trans hy₁.failed, ?_⟩, ?_⟩
          · rw [hprog.nChainTx]
            exact hy₁.linked
          · rwa [hprog.path]
        · rintro ⟨b, s'⟩ ⟨hmoves, htrue, hfalse⟩
          refine ⟨.head hmove hmoves, fun hb => ?_, fun hb => ?_⟩
          · obtain ⟨hlast, hmem', hfl⟩ := htrue hb
            refine ⟨?_, hmem', fun x => (hfl x).trans (hflags x)⟩
            rw [hlast, List.getLast?_cons]
            cases l.getLast? <;> rfl
          · refine (hfalse hb).imp ?_ id
            rintro ⟨y, hy, hold, hnew⟩
            exact ⟨y, by simp [hy], (hflags y).symm.trans hold, hnew⟩
    · rw [hconn]
      have hmove : Move env s (s.rejected h) := .reject s h hh.mem (hp.trans htip.symm) hh.failed hinv
      have hfail := failed_rejected s h
      have herase : Move env (s.rejected h) ((s.rejected h).eraseCandidate h) := .erase _ h hfail
      exact ⟨.head hmove (.single herase), by simp, fun _ => .inl ⟨h, by simp, hh.failed, hfail⟩⟩
    · rw [hconn]
      exact .single hmove
    · rw [hconn]
      trivial

theorem ascends_concat (t : BlockTree) {z : UInt256} : ∀ (l : List UInt256) (x : UInt256),
    Ascends t x l → (t.index z).pprev = (l.getLast?).or (some x) → Ascends t x (l ++ [z])
  | [], _, _, hz => ⟨hz, trivial⟩
  | y :: l, x, h, hz => by
    refine ⟨h.1, ascends_concat t l y h.2 ?_⟩
    rw [hz, List.getLast?_cons]
    cases l.getLast? <;> rfl

/-- What lies on a path above one of its blocks stands on this block. -/
theorem IsTree.ascends_of_path {g : UInt256} (hT : IsTree s.toBlockTree g) {z x : UInt256}
    (hz : z ∈ s.mapBlockIndex) :
    ∀ {l : List UInt256}, s.path z = l ++ s.path x → Ascends s.toBlockTree x l.reverse := by
  induction z, hz using hT.levelled.induction with
  | root z hz hp =>
    intro l hl
    rw [BlockTree.path, ParentTree.path_of_root hT.levelled hz hp] at hl
    cases l with
    | nil => trivial
    | cons y l =>
      have hnil : l ++ s.path x = [] := (List.cons.inj hl).2.symm
      exact absurd (List.append_eq_nil_iff.1 hnil).2 (ParentTree.path_ne_nil x)
  | child z hz b hp ih =>
    intro l hl
    cases l with
    | nil => trivial
    | cons y l =>
      rw [BlockTree.path, ParentTree.path_of_parent hT.levelled hz hp, List.cons_append,
        List.cons_eq_cons] at hl
      obtain ⟨rfl, hl⟩ := hl
      rw [List.reverse_cons]
      refine ascends_concat _ _ _ (ih hl) ?_
      -- the parent is the highest block of the rest
      rw [List.getLast?_reverse]
      have hb : (l ++ s.path x).head? = some b := by
        rw [← hl]
        exact ParentTree.head?_path b
      refine hp.trans ?_
      cases l with
      | nil => exact (ParentTree.head?_path x).symm.trans hb |>.symm
      | cons y' l => exact hb.symm

theorem takeWhile_congr_mem {f g : UInt256 → Bool} : ∀ {l : List UInt256},
    (∀ x ∈ l, f x = g x) → l.takeWhile f = l.takeWhile g
  | [], _ => rfl
  | y :: l, h => by
    rw [List.takeWhile_cons, List.takeWhile_cons, h y (by simp),
      takeWhile_congr_mem fun x hx => h x (by simp [hx])]

/-- One batch of `ActivateBestChainStep`: the blocks above the tip, up to an ancestor of the
most-work block. -/
theorem SelectInv.batch (hI : SelectInv env s) {m x : UInt256} (hm : m ∈ s.mapBlockIndex)
    (hx : x ∈ s.path m) {k : ℤ} (hk : (s.index x).nHeight < k) (hkm : k ≤ (s.index m).nHeight) :
    ∃ z l, s.getAncestor m k = some z ∧ z ∈ s.path m ∧ (s.index z).nHeight = k ∧
      (s.path z).takeWhile (fun p => (s.index p).nHeight ≠ (s.index x).nHeight) = l ∧
      Ascends s.toBlockTree x l.reverse ∧ l.reverse.getLast? = some z ∧
      ∀ y ∈ l, y ∈ s.path m ∧ s.height x < s.height y := by
  have hT := hI.tree
  have hL := hT.levelled
  have hxm := ParentTree.mem_of_mem_path hL hm x hx
  rw [hT.nHeight_eq hxm] at hk
  rw [hT.nHeight_eq hm] at hkm
  obtain ⟨z, hz, hzk⟩ := ParentTree.exists_mem_path_height hL hm k.toNat (by omega)
  have hzm := ParentTree.mem_of_mem_path hL hm z hz
  have hxz : x ∈ s.path z :=
    ParentTree.mem_path_of_height_le hL hm z hz x hx (by omega)
  have hsplit := ParentTree.path_eq_append hL hzm x hxz
  have hl : (s.path z).takeWhile (fun p => (s.index p).nHeight ≠ (s.index x).nHeight) =
      (s.path z).takeWhile fun p => decide (s.height p ≠ s.height x) := by
    refine takeWhile_congr_mem fun y hy => ?_
    rw [hT.nHeight_eq (ParentTree.mem_of_mem_path hL hzm y hy), hT.nHeight_eq hxm]
    simp
  have hnz : (s.index z).nHeight = k := by
    rw [hT.nHeight_eq hzm]
    omega
  refine ⟨z, _, (hT.getAncestor_eq_some_iff hm).2 ⟨hz, hnz⟩, hz, hnz, hl,
    hT.ascends_of_path hzm hsplit, ?_, fun y hy => ?_⟩
  · have hfirst : (s.path z).head? = some z := ParentTree.head?_path z
    rw [List.getLast?_reverse]
    cases hp : s.path z with
    | nil => exact absurd hp (ParentTree.path_ne_nil z)
    | cons z' rest =>
      rw [hp] at hfirst
      cases hfirst
      rw [List.takeWhile_cons_of_pos (by simp; omega)]
      rfl
  · have hyz := (List.takeWhile_sublist _).subset hy
    have hym : y ∈ s.path m := ParentTree.path_trans hL hm z hz y hyz
    exact ⟨hym, ParentTree.height_lt_of_mem_takeWhile hL hzm x hxz y hy⟩

/-- Towards the most-work block, batch by batch. -/
theorem connectTowards_ends {m : UInt256} {w : ℕ} (n : ℕ) : ∀ (s : SelectState) (x : UInt256),
    SelectInv env s → NoCorruption env s → s.tipHash = some x → x ∈ s.path m →
    m ∈ s.setBlockIndexCandidates →
    (∀ y ∈ s.path m, s.height x < s.height y → (s.index y).nStatus.failed = false) →
    s.height m < n + s.height x →
    Ends env s (connectTowards env (some w) m n (s.index x).nHeight s) fun s' => Moves env s s' ∧
      (s'.tipHash = some m ∨
        (∃ h ∈ s.mapBlockIndex, (s.index h).nStatus.failed = false ∧
          (s'.index h).nStatus.failed = true) ∨
        ∃ tip, s'.tipHash = some tip ∧ w < (s'.index tip).nChainWork) := by
  induction n with
  | zero =>
    intro s x hI _ _ hx hm _ hn
    have := ParentTree.height_le_of_mem_path hI.tree.levelled (hI.candidates m hm).1 x hx
    change s.height x ≤ s.height m at this
    omega
  | succ n ih =>
    intro s x hI hC htip hx hm hclear hn
    obtain ⟨hmMem, hmLink, -⟩ := hI.candidates m hm
    have hT := hI.tree
    have hxMem := ParentTree.mem_of_mem_path hT.levelled hmMem x hx
    have hle : s.height x ≤ s.height m :=
      ParentTree.height_le_of_mem_path hT.levelled hmMem x hx
    rw [connectTowards]
    split
    · next heq =>
      rw [hT.nHeight_eq hxMem, hT.nHeight_eq hmMem] at heq
      have hxm : x = m := ParentTree.eq_of_mem_path_of_height_eq hT.levelled hmMem hx
        (ParentTree.self_mem_path m) (by exact_mod_cast heq)
      exact ⟨.refl, .inl (hxm ▸ htip)⟩
    · next hne =>
      obtain ⟨z, l, hanc, hz, hzk, hl, hasc, hlast, habove⟩ := hI.batch hmMem hx
        (k := min ((s.index x).nHeight + 32) (s.index m).nHeight)
        (by rw [hT.nHeight_eq hxMem, hT.nHeight_eq hmMem] at *; omega) (by omega)
      simp only [hanc, hl]
      have hbatch := connectBlocks_ends (m := m) (w := w) l.reverse s x hI hC htip hasc hm
        fun y hy => by
          obtain ⟨hym, hxy⟩ := habove y (List.mem_reverse.1 hy)
          exact ⟨⟨ParentTree.mem_of_mem_path hT.levelled hmMem y hym, hclear y hym hxy,
            hI.linked_path hmMem hmLink y hym⟩, hym⟩
      rcases hbatch.cases with ⟨⟨b, s'⟩, hrun, hmoves, htrue, hfalse⟩ | ⟨s', hrun, hmoves⟩ | hrun
      · rw [hrun]
        cases b with
        | false =>
          refine ⟨hmoves, .inr ((hfalse rfl).imp ?_ id)⟩
          rintro ⟨h, hh, hold, hnew⟩
          have hhm := (habove h (List.mem_reverse.1 hh)).1
          exact ⟨h, ParentTree.mem_of_mem_path hT.levelled hmMem h hhm, hold, hnew⟩
        | true =>
          obtain ⟨htip', hm', hflags⟩ := htrue rfl
          rw [hlast, Option.some_or] at htip'
          have hprog := hmoves.progress
          have hzMem := ParentTree.mem_of_mem_path hT.levelled hmMem z hz
          have hxz : s.height x < s.height z := by
            rw [hT.nHeight_eq hzMem, hT.nHeight_eq hmMem, hT.nHeight_eq hxMem] at hzk
            rw [hT.nHeight_eq hxMem, hT.nHeight_eq hmMem] at hne
            omega
          simp only
          rw [show min ((s.index x).nHeight + 32) (s.index m).nHeight = (s'.index z).nHeight by
            rw [hprog.nHeight, hzk]]
          refine ((ih s' z (hI.moves hmoves) (hC.progress hprog) htip' (by rwa [hprog.path]) hm'
            (fun y hy hzy => ?_) ?_).after hmoves).mono ?_
          · rw [hprog.path] at hy
            rw [hprog.height, hprog.height] at hzy
            rw [hflags]
            exact hclear y hy (hxz.trans hzy)
          · rw [hprog.height, hprog.height]
            omega
          · rintro s'' ⟨hmoves', hend⟩
            refine ⟨hmoves.trans hmoves', hend.imp id (Or.imp ?_ id)⟩
            rintro ⟨h, hh, hold, hnew⟩
            exact ⟨h, (hprog.mem h).1 hh, (hflags h).symm.trans hold, hnew⟩
      · rw [hrun]
        exact hmoves
      · rw [hrun]
        trivial

end Connect

/-! ## Rounds -/

section Rounds

variable {env : SelectEnv} {s : SelectState}

/-- `FindFork` finds the last block of the active chain on the path to a block. -/
theorem findFork_spec (hI : SelectInv env s) {m : UInt256} (hm : m ∈ s.mapBlockIndex) :
    ∃ fork, s.findFork m = some fork ∧ fork ∈ s.path m ∧ fork ∈ s.chainActive ∧
      ∀ y ∈ s.path m, s.height fork < s.height y → y ∉ s.chainActive := by
  obtain ⟨tip, htipMem, -, hchain, -⟩ := hI.exists_tip
  have hT := hI.tree
  have hL := hT.levelled
  have hlen : (s.chainActive.length : ℤ) - 1 = (s.index tip).nHeight := by
    have : (s.path tip).length = s.height tip + 1 := ParentTree.length_path hL htipMem
    rw [hchain, List.length_reverse, this, hT.nHeight_eq htipMem]
    omega
  -- the walk starts at a block of the path that is not below the tip
  obtain ⟨p, hstart, hp, hlow⟩ : ∃ p, (if (s.chainActive.length : ℤ) - 1 < (s.index m).nHeight then
      s.getAncestor m ((s.chainActive.length : ℤ) - 1) else some m) = some p ∧ p ∈ s.path m ∧
      ∀ y ∈ s.path m, s.height y ≤ s.height tip → y ∈ s.path p := by
    rw [hlen]
    split
    · next hlt =>
      rw [hT.nHeight_eq htipMem, hT.nHeight_eq hm] at hlt
      obtain ⟨p, hp, hpk⟩ := ParentTree.exists_mem_path_height hL hm (s.height tip) (by omega)
      have hpm := ParentTree.mem_of_mem_path hL hm p hp
      refine ⟨p, (hT.getAncestor_eq_some_iff hm).2 ⟨hp, ?_⟩, hp, fun y hy hle => ?_⟩
      · rw [hT.nHeight_eq hpm, hT.nHeight_eq htipMem, hpk]
      · exact ParentTree.mem_path_of_height_le hL hm p hp y hy (by omega)
    · exact ⟨m, rfl, ParentTree.self_mem_path m, fun y hy _ => hy⟩
  have hpm := ParentTree.mem_of_mem_path hL hm p hp
  have hg : env.hashGenesisBlock ∈ s.path p := hT.genesis_mem_path hpm
  have hgc : s.contains env.hashGenesisBlock = true := by
    rw [hI.contains_iff hT.mem_genesis, hchain, List.mem_reverse]
    exact hT.genesis_mem_path htipMem
  obtain ⟨fork, hfork⟩ := Option.isSome_iff_exists.1 (List.find?_isSome.2 ⟨_, hg, hgc⟩)
  obtain ⟨hcont, l, r, hsplit, hbefore⟩ := List.find?_eq_some_iff_append.1 hfork
  have hforkp : fork ∈ s.path p := by
    rw [hsplit]
    simp
  have hforkPath : s.path fork = fork :: r := ParentTree.path_of_eq_append hL hpm hsplit
  have hforkm : fork ∈ s.path m := ParentTree.path_trans hL hm p hp fork hforkp
  have hforkMem := ParentTree.mem_of_mem_path hL hm fork hforkm
  refine ⟨fork, ?_, hforkm, (hI.contains_iff hforkMem).1 hcont, fun y hy hlt hin => ?_⟩
  · rw [findFork]
    simp only [hstart, Option.bind_some]
    exact hfork
  · have hytip : y ∈ s.path tip := by
      rw [hchain, List.mem_reverse] at hin
      exact hin
    have hyp := hlow y hy (ParentTree.height_le_of_mem_path hL htipMem y hytip)
    rw [hsplit, List.mem_append, ← hforkPath] at hyp
    rcases hyp with hyl | hyf
    · have := hbefore y hyl
      rw [(hI.contains_iff (ParentTree.mem_of_mem_path hL hm y hy)).2 hin] at this
      exact absurd this (by simp)
    · have : s.height y ≤ s.height fork :=
        ParentTree.height_le_of_mem_path hL hforkMem y hyf
      omega

/-- The work of the tip. -/
def SelectState.tipWork (s : SelectState) : ℕ :=
  (s.tipHash.map fun tip => (s.index tip).nChainWork).getD 0

/-- **One round.**  `ActivateBestChainStep` reaches the most-work block, or marks a block, or
raises the work of the tip. -/
theorem activateBestChainStep_ends (hI : SelectInv env s) (hC : NoCorruption env s) {m : UInt256}
    (hm : m ∈ s.setBlockIndexCandidates)
    (hclear : ∀ x ∈ s.path m, x ∉ s.chainActive → (s.index x).nStatus.failed = false) :
    Ends env s (s.activateBestChainStep env m) fun s' => Moves env s s' ∧
      (s'.tipHash = some m ∨
        (∃ h ∈ s.mapBlockIndex, (s.index h).nStatus.failed = false ∧
          (s'.index h).nStatus.failed = true) ∨ s.tipWork < s'.tipWork) := by
  obtain ⟨tip, -, htip, -, -⟩ := hI.exists_tip
  obtain ⟨fork, hfind, hforkm, hforkc, habove⟩ := findFork_spec hI (hI.candidates m hm).1
  rw [activateBestChainStep]
  simp only [hfind, htip, Option.map_some]
  rcases (disconnectTo_ends s.chainActive.length s hI hforkc le_rfl).cases with
    ⟨s₁, hrun, hmoves, htip₁, hindex, hcand⟩ | ⟨s₁, hrun, hmoves⟩ | hrun
  · rw [hrun]
    simp only
    have hprog := hmoves.progress
    refine ((connectTowards_ends (w := (s.index tip).nChainWork) _ s₁ fork (hI.moves hmoves)
      (hC.progress hprog) htip₁ (by rwa [hprog.path]) (by rwa [hcand])
      (fun y hy hlt => ?_) ?_).after hmoves).mono ?_
    · rw [hprog.path] at hy
      rw [hprog.height, hprog.height] at hlt
      rw [hindex]
      exact hclear y hy (habove y hy hlt)
    · omega
    · rintro s' ⟨hmoves', hend⟩
      refine ⟨hmoves.trans hmoves', hend.imp id (Or.imp ?_ ?_)⟩
      · rintro ⟨h, hh, hold, hnew⟩
        exact ⟨h, (hprog.mem h).1 hh, by rwa [hindex] at hold, hnew⟩
      · rintro ⟨tip', htip', hlt⟩
        rw [tipWork, tipWork, htip, htip']
        exact hlt
  · rw [hrun]
    exact hmoves
  · rw [hrun]
    trivial

/-- The blocks of the index. -/
def SelectState.blockSet (s : SelectState) : Finset UInt256 := s.mapBlockIndex.keys.toFinset

/-- The blocks that are not marked. -/
def SelectState.unmarked (s : SelectState) : Finset UInt256 :=
  s.blockSet.filter fun h => (s.index h).nStatus.failed = false

/-- The blocks with more work than the tip. -/
def SelectState.better (s : SelectState) : Finset UInt256 :=
  s.blockSet.filter fun h => s.tipWork < (s.index h).nChainWork

/-- Blocks that can still be marked count most, then blocks with more work than the tip. -/
def SelectState.rank (s : SelectState) : ℕ :=
  s.unmarked.card * (s.blockSet.card + 1) + s.better.card

theorem mem_blockSet {h : UInt256} : h ∈ s.blockSet ↔ h ∈ s.mapBlockIndex := by
  rw [SelectState.blockSet, List.mem_toFinset, AList.mem_keys]

theorem Progress.blockSet {s' : SelectState} (h : Progress s s') : s'.blockSet = s.blockSet := by
  ext x
  rw [mem_blockSet, mem_blockSet, h.mem]

theorem Progress.unmarked_subset {s' : SelectState} (h : Progress s s') :
    s'.unmarked ⊆ s.unmarked := by
  intro x hx
  rw [unmarked, Finset.mem_filter, h.blockSet] at hx
  rw [unmarked, Finset.mem_filter]
  refine ⟨hx.1, ?_⟩
  by_contra hfail
  have := h.failed x (by simpa using hfail)
  rw [hx.2] at this
  exact absurd this (by simp)

/-- While the tip keeps its work, the rank does not grow. -/
theorem Progress.rank_le {s' : SelectState} (h : Progress s s') (hwork : s'.tipWork = s.tipWork) :
    s'.rank ≤ s.rank := by
  have hbetter : s'.better = s.better := by
    ext x
    rw [better, better, Finset.mem_filter, Finset.mem_filter, h.blockSet, hwork, h.nChainWork]
  have hcard := Finset.card_le_card h.unmarked_subset
  rw [rank, rank, h.blockSet, hbetter]
  exact Nat.add_le_add_right (Nat.mul_le_mul_right _ hcard) _

/-- The rank drops when a block is marked. -/
theorem Progress.rank_lt_of_mark {s' : SelectState} (h : Progress s s') {x : UInt256}
    (hx : x ∈ s.mapBlockIndex) (hold : (s.index x).nStatus.failed = false)
    (hnew : (s'.index x).nStatus.failed = true) : s'.rank < s.rank := by
  have hlt : s'.unmarked.card < s.unmarked.card := by
    refine Finset.card_lt_card ((Finset.ssubset_iff_of_subset h.unmarked_subset).2 ⟨x, ?_, ?_⟩)
    · rw [unmarked, Finset.mem_filter]
      exact ⟨mem_blockSet.2 hx, hold⟩
    · rw [unmarked, Finset.mem_filter, hnew]
      simp
  have hbetter : s'.better.card ≤ s.blockSet.card := by
    rw [← h.blockSet]
    exact Finset.card_le_card (Finset.filter_subset _ _)
  have hmul : (s'.unmarked.card + 1) * (s.blockSet.card + 1) ≤
      s.unmarked.card * (s.blockSet.card + 1) := Nat.mul_le_mul_right _ hlt
  rw [Nat.add_mul, Nat.one_mul] at hmul
  rw [rank, rank, h.blockSet]
  omega

/-- The rank drops when the tip gains work. -/
theorem Progress.rank_lt_of_work {s' : SelectState} (h : Progress s s') (hI' : SelectInv env s')
    (hwork : s.tipWork < s'.tipWork) : s'.rank < s.rank := by
  obtain ⟨tip, hmem, htip, -, -⟩ := hI'.exists_tip
  have htw : s'.tipWork = (s'.index tip).nChainWork := by
    rw [tipWork, htip]
    rfl
  have hsub : s'.better ⊆ s.better := by
    intro x hx
    rw [better, Finset.mem_filter, h.blockSet, h.nChainWork] at hx
    rw [better, Finset.mem_filter]
    exact ⟨hx.1, hwork.trans hx.2⟩
  have hlt : s'.better.card < s.better.card := by
    refine Finset.card_lt_card ((Finset.ssubset_iff_of_subset hsub).2 ⟨tip, ?_, ?_⟩)
    · rw [better, Finset.mem_filter, mem_blockSet, ← h.mem, ← h.nChainWork, ← htw]
      exact ⟨hmem, hwork⟩
    · rw [better, Finset.mem_filter, htw]
      simp
  have hcard := Finset.card_le_card h.unmarked_subset
  have hmul : s'.unmarked.card * (s.blockSet.card + 1) ≤
      s.unmarked.card * (s.blockSet.card + 1) := Nat.mul_le_mul_right _ hcard
  rw [rank, rank, h.blockSet]
  omega

/-- A round of the loop when the best candidate is not the tip. -/
theorem activateBestChain_round {s s₁ : SelectState} {m : UInt256} {n : ℕ}
    (hfind : findMostWorkChain env n s = .ok (some m, s₁)) (htip : s₁.tipHash ≠ some m) :
    activateBestChain env (n + 1) s =
      match s₁.activateBestChainStep env m with
      | .error e => .error e
      | .ok s => if s.tipHash = some m then
          if env.flushStateToDisk s.nConnects then .ok s else .error .abort
        else activateBestChain env n s := by
  rw [activateBestChain, hfind]
  exact if_neg htip

/-- **Activation ends.**  With enough fuel the loop of `ActivateBestChain` returns, and then no
candidate is above the tip. -/
theorem activateBestChain_ends (k : ℕ) : ∀ (s : SelectState), SelectInv env s →
    NoCorruption env s → s.rank ≤ k →
    ∃ r, (∀ fuel, k + s.setBlockIndexCandidates.length + 1 < fuel →
        activateBestChain env fuel s = r) ∧
      Ends env s r fun s' => Moves env s s' ∧ ∀ tip, s'.tipHash = some tip →
        ∀ c ∈ s'.setBlockIndexCandidates, s'.less env tip c = false := by
  induction k using Nat.strong_induction_on with
  | _ k ih =>
    intro s hI hC hrank
    obtain ⟨r, s₁, hfind, hmoves, hchain, hnone, hsome⟩ :=
      findMostWorkChain_spec s.setBlockIndexCandidates.length s hI le_rfl
    have hprog := hmoves.progress
    have hI₁ := hI.moves hmoves
    cases r with
    | none =>
      refine ⟨.ok s₁, fun fuel hfuel => ?_, hmoves, fun tip _ c hc => ?_⟩
      · obtain ⟨n, rfl⟩ : ∃ n, fuel = n + 1 := ⟨fuel - 1, by omega⟩
        rw [activateBestChain, hfind n (by omega)]
      · rw [hnone rfl] at hc
        exact absurd hc (by simp)
    | some m =>
      obtain ⟨hm, hmax, hclear⟩ := hsome m rfl
      by_cases htip : s₁.tipHash = some m
      · refine ⟨.ok s₁, fun fuel hfuel => ?_, hmoves, fun tip htip' c hc => ?_⟩
        · obtain ⟨n, rfl⟩ : ∃ n, fuel = n + 1 := ⟨fuel - 1, by omega⟩
          rw [activateBestChain, hfind n (by omega)]
          simp only [htip, if_true]
        · cases htip.symm.trans htip'
          exact hmax c hc
      · have hround := activateBestChainStep_ends hI₁ (hC.progress hprog) hm hclear
        have hunfold := fun n hn => activateBestChain_round (hfind n hn) htip
        rcases hround.cases with ⟨s₂, hrun, hmoves₂, hend⟩ | ⟨s₂, hrun, hmoves₂⟩ | hrun
        · have hall := hmoves.trans hmoves₂
          have hprog₂ := hmoves₂.progress
          by_cases htip₂ : s₂.tipHash = some m
          · refine ⟨if env.flushStateToDisk s₂.nConnects then .ok s₂ else .error .abort,
              fun fuel hfuel => ?_, ?_⟩
            · obtain ⟨n, rfl⟩ : ∃ n, fuel = n + 1 := ⟨fuel - 1, by omega⟩
              rw [hunfold n (by omega), hrun]
              simp only [htip₂, if_true]
            · split
              · refine ⟨hall, fun tip htip' c hc => ?_⟩
                cases htip₂.symm.trans htip'
                rw [hprog₂.less]
                exact hmax c (hprog₂.candidates.subset hc)
              · trivial
          · -- the round was not the last one
            have hlt : s₂.rank < s₁.rank := by
              rcases hend with htip' | ⟨h, hh, hold, hnew⟩ | hwork
              · exact absurd htip' htip₂
              · exact hprog₂.rank_lt_of_mark hh hold hnew
              · exact hprog₂.rank_lt_of_work (hI₁.moves hmoves₂) hwork
            have hle : s₁.rank ≤ s.rank := by
              refine hprog.rank_le ?_
              rw [tipWork, tipWork, tipHash, tipHash, hchain]
              simp only [hprog.nChainWork]
            have hlen := (hprog.trans hprog₂).candidates.length_le
            obtain ⟨r, hr, hends⟩ := ih s₂.rank (by omega) s₂ (hI₁.moves hmoves₂)
              ((hC.progress hprog).progress hprog₂) le_rfl
            refine ⟨r, fun fuel hfuel => ?_, (hends.after hall).mono ?_⟩
            · obtain ⟨n, rfl⟩ : ∃ n, fuel = n + 1 := ⟨fuel - 1, by omega⟩
              rw [hunfold n (by omega), hrun]
              simp only [if_neg htip₂]
              exact hr n (by omega)
            · rintro s' ⟨hmoves', hbest⟩
              exact ⟨hall.trans hmoves', hbest⟩
        · refine ⟨.error (.fails s₂), fun fuel hfuel => ?_, hmoves.trans hmoves₂⟩
          obtain ⟨n, rfl⟩ : ∃ n, fuel = n + 1 := ⟨fuel - 1, by omega⟩
          rw [hunfold n (by omega), hrun]
        · refine ⟨.error .abort, fun fuel hfuel => ?_, trivial⟩
          obtain ⟨n, rfl⟩ : ∃ n, fuel = n + 1 := ⟨fuel - 1, by omega⟩
          rw [hunfold n (by omega), hrun]

/-- More fuel does not change what `FindMostWorkChain` finds. -/
theorem findMostWorkChain_mono {r : Except Stop (Option UInt256 × SelectState)}
    (hr : r ≠ .error .outOfFuel) (n : ℕ) : ∀ (s : SelectState) (k : ℕ),
      findMostWorkChain env n s = r → n ≤ k → findMostWorkChain env k s = r := by
  induction n with
  | zero => exact fun s k h _ => absurd h.symm hr
  | succ n ih =>
    intro s k h hk
    obtain ⟨k, rfl⟩ : ∃ j, k = j + 1 := ⟨k - 1, by omega⟩
    rw [findMostWorkChain] at h ⊢
    cases hbest : s.best env with
    | none => simpa only [hbest] using h
    | some m =>
      simp only [hbest] at h ⊢
      rcases hscan : s.scan [] ((s.path m).takeWhile fun p => !s.contains p) with e | _ | ⟨above, x⟩
      · simpa only [hscan] using h
      · simpa only [hscan] using h
      · simp only [hscan] at h ⊢
        exact ih _ k h (by omega)

/-- More fuel does not change what `ActivateBestChain` returns. -/
theorem activateBestChain_mono {r : Except Stop SelectState} (hr : r ≠ .error .outOfFuel)
    (n : ℕ) : ∀ (s : SelectState) (k : ℕ),
      activateBestChain env n s = r → n ≤ k → activateBestChain env k s = r := by
  induction n with
  | zero => exact fun s k h _ => absurd h.symm hr
  | succ n ih =>
    intro s k h hk
    obtain ⟨k, rfl⟩ : ∃ j, k = j + 1 := ⟨k - 1, by omega⟩
    rw [activateBestChain] at h ⊢
    have hfind : findMostWorkChain env k s = findMostWorkChain env n s := by
      refine findMostWorkChain_mono (fun hfuel => ?_) n s k rfl (by omega)
      rw [hfuel] at h
      exact hr h.symm
    rw [hfind]
    rcases hfound : findMostWorkChain env n s with e | ⟨_ | m, s₁⟩
    · simpa only [hfound] using h
    · simpa only [hfound] using h
    · simp only [hfound] at h ⊢
      split at h
      · next htip => rwa [if_pos htip]
      · next htip =>
        rw [if_neg htip]
        cases hstep : s₁.activateBestChainStep env m with
        | error e => simpa only [hstep] using h
        | ok s₂ =>
          simp only [hstep] at h ⊢
          split at h
          · next htip₂ => rwa [if_pos htip₂]
          · next htip₂ =>
            rw [if_neg htip₂]
            exact ih s₂ k h (by omega)

end Rounds

end FairCoin
