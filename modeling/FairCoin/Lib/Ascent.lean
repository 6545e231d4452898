import FairCoin.Lib.ParentTree

/-!
# Climbing a tree step by step

Parent pointers followed a number of times, and two nodes that climb together until they meet.

* `ascend` — the pointers followed `n` times; `mem_path_iff_ascend` says that this reaches exactly
  the nodes of the path.
* `meet` — two nodes of the same height climb until they are equal.
* `meet_spec` — **they meet at their deepest common ancestor**.
-/

namespace ParentTree

variable {α : Type} (parent : α → Option α)

/-- Follow the parent pointers `n` times. -/
def ascend : ℕ → α → Option α
  | 0, a => some a
  | n + 1, a => (parent a).bind (ascend n)

/-- Two nodes climb together until they are the same or one of them is missing. -/
def meet [DecidableEq α] : ℕ → Option α → Option α → Option α × Option α
  | n + 1, some a, some b =>
      if a = b then (some a, some b) else meet n (parent a) (parent b)
  | _, a, b => (a, b)

variable {parent} {height : α → ℕ} {S : Set α}

/-- Up to the height of the node there is an ancestor to climb to. -/
theorem ascend_eq (hT : Levelled parent height S) {a : α} (ha : a ∈ S) :
    ∀ n ≤ height a, ∃ x ∈ path parent height a, height x + n = height a ∧
      ascend parent n a = some x := by
  induction a, ha using hT.induction with
  | root a ha hp =>
    intro n hn
    have hzero := hT.height_root a ha hp
    obtain rfl : n = 0 := by omega
    exact ⟨a, self_mem_path a, rfl, rfl⟩
  | child a ha b hp ih =>
    intro n hn
    have hheight := hT.height_parent a ha b hp
    cases n with
    | zero => exact ⟨a, self_mem_path a, rfl, rfl⟩
    | succ n =>
      obtain ⟨x, hx, hxn, hasc⟩ := ih n (by omega)
      refine ⟨x, (mem_path_iff hT ha).2 (.inr ⟨b, hp, hx⟩), by omega, ?_⟩
      rw [ascend, hp]
      exact hasc

theorem ascend_eq_none (hT : Levelled parent height S) {a : α} (ha : a ∈ S) :
    ∀ n, height a < n → ascend parent n a = none := by
  induction a, ha using hT.induction with
  | root a ha hp =>
    intro n hn
    obtain ⟨m, rfl⟩ : ∃ m, n = m + 1 := ⟨n - 1, by omega⟩
    rw [ascend, hp]
    rfl
  | child a ha b hp ih =>
    intro n hn
    have hheight := hT.height_parent a ha b hp
    obtain ⟨m, rfl⟩ : ∃ m, n = m + 1 := ⟨n - 1, by omega⟩
    rw [ascend, hp]
    exact ih m (by omega)

/-- **The nodes of a path are those that climbing reaches.** -/
theorem mem_path_iff_ascend (hT : Levelled parent height S) {a x : α} (ha : a ∈ S) :
    x ∈ path parent height a ↔ ∃ n, ascend parent n a = some x := by
  constructor
  · intro hx
    have hle := height_le_of_mem_path hT ha x hx
    obtain ⟨y, hy, hyn, hasc⟩ := ascend_eq hT ha (height a - height x) (by omega)
    refine ⟨_, hasc.trans ?_⟩
    rw [eq_of_mem_path_of_height_eq hT ha hy hx (by omega)]
  · rintro ⟨n, hn⟩
    rcases Nat.lt_or_ge (height a) n with hlt | hle
    · rw [ascend_eq_none hT ha n hlt] at hn
      cases hn
    · obtain ⟨y, hy, -, hasc⟩ := ascend_eq hT ha n hle
      cases hasc.symm.trans hn
      exact hy

/-- **Two nodes of the same height meet at their deepest common ancestor**, when they have one. -/
theorem meet_spec [DecidableEq α] (hT : Levelled parent height S) {a : α} (ha : a ∈ S) :
    ∀ {b : α} {n : ℕ}, b ∈ S → height b = height a → height a ≤ n →
      (∃ x ∈ path parent height a, x ∈ path parent height b) →
      ∃ x, meet parent n (some a) (some b) = (some x, some x) ∧
        x ∈ path parent height a ∧ x ∈ path parent height b ∧
        ∀ y ∈ path parent height a, y ∈ path parent height b → y ∈ path parent height x := by
  induction a, ha using hT.induction with
  | root a ha hp =>
    rintro b n hb hheight - ⟨x, hxa, hxb⟩
    have hzero := hT.height_root a ha hp
    have hlow := height_le_of_mem_path hT hb x hxb
    rw [path_of_root hT ha hp, List.mem_singleton] at hxa
    subst hxa
    obtain rfl : x = b := eq_of_mem_path_of_height_eq hT hb hxb (self_mem_path b) hheight.symm
    refine ⟨x, ?_, self_mem_path x, self_mem_path x, fun y hy _ => hy⟩
    cases n with
    | zero => rfl
    | succ n => rw [meet, if_pos rfl]
  | child a ha b' hp ih =>
    rintro b n hb hheight hn ⟨x, hxa, hxb⟩
    have hup := hT.height_parent a ha b' hp
    obtain ⟨m, rfl⟩ : ∃ m, n = m + 1 := ⟨n - 1, by omega⟩
    by_cases hab : a = b
    · subst hab
      exact ⟨a, by rw [meet, if_pos rfl], self_mem_path a, self_mem_path a, fun y hy _ => hy⟩
    · obtain ⟨c, hc⟩ : ∃ c, parent b = some c := by
        cases hc : parent b with
        | none =>
          have := hT.height_root b hb hc
          omega
        | some c => exact ⟨c, rfl⟩
      have hcS := hT.parent_mem b hb c hc
      have hch := hT.height_parent b hb c hc
      -- a common ancestor of two different nodes of one height is above neither
      have hbelow : ∀ y ∈ path parent height a, y ∈ path parent height b →
          y ∈ path parent height b' ∧ y ∈ path parent height c := by
        intro y hya hyb
        have hne : y ≠ a ∧ y ≠ b := by
          constructor
          · rintro rfl
            exact hab (eq_of_mem_path_of_height_eq hT hb hyb (self_mem_path b) hheight.symm)
          · rintro rfl
            exact hab (eq_of_mem_path_of_height_eq hT ha hya (self_mem_path a) hheight).symm
        exact ⟨mem_path_parent hT ha hp hya hne.1, mem_path_parent hT hb hc hyb hne.2⟩
      obtain ⟨z, hz, hza, hzb, hdeep⟩ := ih hcS (by omega) (show height b' ≤ m by omega)
        ⟨x, hbelow x hxa hxb⟩
      refine ⟨z, ?_, (mem_path_iff hT ha).2 (.inr ⟨b', hp, hza⟩),
        (mem_path_iff hT hb).2 (.inr ⟨c, hc, hzb⟩), fun y hya hyb => ?_⟩
      · rw [meet, if_neg hab, hp, hc, hz]
      · obtain ⟨hya', hyc⟩ := hbelow y hya hyb
        exact hdeep y hya' hyc

end ParentTree
