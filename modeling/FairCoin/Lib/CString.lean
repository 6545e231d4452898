import Mathlib.Data.List.DropRight
import Mathlib.Data.List.TakeWhile

/-!
# C strings

Texts as lists of bytes: the classes of characters of the C locale, and a string as the functions on
`char*` see it, up to its first NUL.

* `cStr` — the part before the first NUL.
* `span_append` — a text that starts with characters of a class.
* `trimmed` — a text without the white space around it.
-/

namespace CString

/-- `isspace`. -/
def isspace (c : UInt8) : Bool := c == 32 || (9 ≤ c && c ≤ 13)

/-- `isdigit`. -/
def isdigit (c : UInt8) : Bool := 48 ≤ c && c ≤ 57

/-- `c_str()`, as far as it is read. -/
def cStr (str : List UInt8) : List UInt8 := str.takeWhile (· != 0)

/-- The number of a digit. -/
def digitOf (c : UInt8) : ℕ := c.toNat - 48

/-- The character of a digit. -/
def digitChar (d : ℕ) : UInt8 := UInt8.ofNat (48 + d)

theorem isspace_zero : isspace 0 = false := rfl

theorem isdigit_zero : isdigit 0 = false := rfl

theorem isdigit_iff {c : UInt8} : isdigit c = true ↔ 48 ≤ c.toNat ∧ c.toNat ≤ 57 := by
  rw [isdigit, Bool.and_eq_true, decide_eq_true_iff, decide_eq_true_iff, UInt8.le_iff_toNat_le,
    UInt8.le_iff_toNat_le]
  rfl

/-- A digit is no white space. -/
theorem isspace_of_isdigit {c : UInt8} (h : isdigit c = true) : isspace c = false := by
  obtain ⟨hlo, hhi⟩ := isdigit_iff.1 h
  have h32 : ¬ c = 32 := by
    rintro rfl
    exact absurd hlo (by decide)
  have h13 : ¬ c ≤ 13 := by
    rw [UInt8.le_iff_toNat_le]
    show ¬ c.toNat ≤ 13
    omega
  rw [isspace, beq_eq_false_iff_ne.2 h32, decide_eq_false h13, Bool.and_false, Bool.or_false]

theorem digitOf_lt {c : UInt8} (h : isdigit c = true) : digitOf c < 10 := by
  obtain ⟨hlo, hhi⟩ := isdigit_iff.1 h
  unfold digitOf
  omega

theorem toNat_digitChar {d : ℕ} (h : d < 10) : (digitChar d).toNat = 48 + d := by
  rw [digitChar, UInt8.toNat_ofNat']
  exact Nat.mod_eq_of_lt (by omega)

theorem digitOf_digitChar {d : ℕ} (h : d < 10) : digitOf (digitChar d) = d := by
  rw [digitOf, toNat_digitChar h, Nat.add_sub_cancel_left]

theorem isdigit_digitChar {d : ℕ} (h : d < 10) : isdigit (digitChar d) = true := by
  rw [isdigit_iff, toNat_digitChar h]
  omega

/-! ## Classes of characters -/

/-- **A text that starts with characters of a class**, and goes on with one that is not. -/
theorem span_append {α : Type*} {p : α → Bool} {s t : List α} (hs : ∀ c ∈ s, p c = true)
    (ht : ∀ c ∈ t.head?, p c = false) :
    (s ++ t).takeWhile p = s ∧ (s ++ t).dropWhile p = t := by
  have hstop : t.takeWhile p = [] ∧ t.dropWhile p = t := by
    cases t with
    | nil => exact ⟨rfl, rfl⟩
    | cons c t =>
      have hc : ¬ p c = true := Bool.eq_false_iff.1 (ht c rfl)
      exact ⟨List.takeWhile_cons_of_neg hc, List.dropWhile_cons_of_neg hc⟩
  rw [List.takeWhile_append_of_pos hs, List.dropWhile_append_of_pos hs, hstop.1, hstop.2]
  exact ⟨List.append_nil s, rfl⟩

theorem of_mem_takeWhile {α : Type*} {p : α → Bool} {l : List α} {c : α} (h : c ∈ l.takeWhile p) :
    p c = true := by
  have hall := @List.all_takeWhile _ p l
  exact List.all_eq_true.1 hall c h

/-- What is left starts with a character that is not of the class. -/
theorem head?_dropWhile {α : Type*} {p : α → Bool} {l : List α} :
    ∀ c ∈ (l.dropWhile p).head?, p c = false := by
  intro c hc
  have h := List.head?_dropWhile_not p l
  rw [Option.mem_def.1 hc] at h
  exact Bool.eq_false_iff.2 (by simpa using h)

/-! ## Up to the first NUL -/

theorem zero_notMem_cStr (str : List UInt8) : (0 : UInt8) ∉ cStr str := by
  intro h
  have := of_mem_takeWhile h
  exact absurd this (by decide)

theorem cStr_eq_self {str : List UInt8} (h : (0 : UInt8) ∉ str) : cStr str = str := by
  rw [cStr, List.takeWhile_eq_self_iff]
  intro c hc
  exact bne_iff_ne.2 fun h0 => h (h0 ▸ hc)

/-! ## White space around a text -/

/-- A text without its leading and trailing white space. -/
def trimmed (s : List UInt8) : List UInt8 := (s.dropWhile isspace).rdropWhile isspace

/-- **A text between white space.** -/
theorem trimmed_append {pre body post : List UInt8} (hpre : ∀ c ∈ pre, isspace c = true)
    (hpost : ∀ c ∈ post, isspace c = true) (hbody : ∀ c ∈ body, isspace c = false) :
    trimmed (pre ++ (body ++ post)) = body := by
  have hright : (body ++ post).rdropWhile isspace = body := by
    have hspan := span_append (p := isspace) (s := post.reverse) (t := body.reverse)
      (fun c hc => hpost c (List.mem_reverse.1 hc))
      (fun c hc => hbody c (List.mem_reverse.1 (List.mem_of_mem_head? hc)))
    rw [List.rdropWhile, List.reverse_append, hspan.2, List.reverse_reverse]
  cases body with
  | nil =>
    rw [List.nil_append, trimmed, List.dropWhile_eq_nil_iff.2]
    · rfl
    · intro c hc
      rcases List.mem_append.1 hc with hc | hc
      · exact hpre c hc
      · exact hpost c hc
  | cons c body =>
    have hleft := span_append (p := isspace) (t := (c :: body) ++ post) hpre (by
      intro x hx
      obtain rfl := Option.some.inj hx
      exact hbody c List.mem_cons_self)
    rw [trimmed, hleft.2, hright]

/-- Only white space is trimmed. -/
theorem mem_dropWhile_isspace {c : UInt8} {s : List UInt8} (hc : isspace c = false) (h : c ∈ s) :
    c ∈ s.dropWhile isspace := by
  rw [← List.takeWhile_append_dropWhile (p := isspace) (l := s)] at h
  rcases List.mem_append.1 h with h | h
  · have := of_mem_takeWhile h
    rw [hc] at this
    cases this
  · exact h

theorem mem_trimmed {c : UInt8} {s : List UInt8} (hc : isspace c = false) (h : c ∈ s) :
    c ∈ trimmed s := by
  have hleft := mem_dropWhile_isspace hc h
  rw [trimmed, List.rdropWhile, List.mem_reverse]
  exact mem_dropWhile_isspace hc (List.mem_reverse.2 hleft)

end CString
