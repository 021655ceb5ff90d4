/-
# `Core.BmkString` — comparing and copying in `bmk_string.c`

The functions work on a flat memory, and what they read and write is kept beside their results, so
that it can be said how far they go.

`bmk_strcmp` takes both pointers past the characters it compares and steps back afterwards, unless
`a` ends there.  When the first difference is at the last character of `a` it does not step back: it
returns what follows, the terminator of `a` against the next byte of `b`, which may be behind the
terminator of `b`.  `bmk_strncpy` does not count the NUL it copies and pads with one byte too many.
`bmk_mempcpy` copies by words once the destination is aligned.

**Proved here.**

    `bmk_strcmp` is a comparison exactly when the next byte of `b` happens to
    have the right sign                                            (`bmkStrcmp_iff`)
    `bmk_strncpy` stays inside its `n` bytes exactly when the source has at
    least `n` characters, overlap included                         (`bmkStrncpy_iff`)
    `bmk_mempcpy` is the byte loop, for both word sizes            (`bmkMempcpy_byteLoop`)
-/
import Librettos.Lib.CStr
import Mathlib.Data.List.GetD

namespace Librettos.BmkString

open Bytes List

/-! ## Comparing -/

/-- The value of a `char`, which is signed. -/
def char (c : UInt8) : Int := c.toBitVec.toInt

/-- The two pointers of a comparison, and the addresses read through each of them. -/
structure Cmp where
  a : ℕ
  b : ℕ
  readA : List ℕ
  readB : List ℕ
  deriving DecidableEq, Repr

/-- `while (*a && *a++ == *b++)`, for at most `k` evaluations of the condition. -/
def strcmpLoop (m : Mem) : ℕ → Cmp → Option Cmp
  | 0, _ => none
  | k + 1, p =>
    if m p.a = 0 then some { p with readA := p.a :: p.readA }
    else
      let p' : Cmp := ⟨p.a + 1, p.b + 1, p.a :: p.readA, p.b :: p.readB⟩
      if m p.a = m p.b then strcmpLoop m k p' else some p'

/-- What follows the loop: a step back, unless `a` has ended, and the difference. -/
def strcmpDiff (m : Mem) (p : Cmp) : Int × Cmp :=
  let q : Cmp := if m p.a ≠ 0 then { p with a := p.a - 1, b := p.b - 1 } else p
  (char (m q.a) - char (m q.b),
    { q with readA := q.a :: p.a :: q.readA, readB := q.b :: q.readB })

def bmkStrcmp (m : Mem) (k a b : ℕ) : Option (Int × Cmp) :=
  (strcmpLoop m k ⟨a, b, [], []⟩).map (strcmpDiff m)

def bmkStrncmp (m : Mem) : ℕ → ℕ → ℕ → Int
  | 0, _, _ => 0
  | n + 1, a, b =>
    let u1 := m a
    let u2 := m b
    if u1 ≠ u2 then (u1.toNat : Int) - u2.toNat
    else if u1 = 0 then 0
    else bmkStrncmp m n (a + 1) (b + 1)

/-- What a comparison of the strings `s` at `a` and `t` at `b` is to do. -/
structure Compares (m : Mem) (a b : ℕ) (s t : List UInt8) (r : Int × Cmp) : Prop where
  readA : ∀ x ∈ r.2.readA, x ≤ a + s.length
  readB : ∀ x ∈ r.2.readB, x ≤ b + t.length
  zero : r.1 = 0 ↔ s = t
  sign : ∀ i ≤ s.length, (∀ j < i, m (a + j) = m (b + j)) → m (a + i) ≠ m (b + i) →
    r.1.sign = (char (m (a + i)) - char (m (b + i))).sign
  strncmp : ∀ n, s.length < n → t.length < n → (r.1 = 0 ↔ bmkStrncmp m n a b = 0)

/-- If the first difference is at the last character of the string at `a`, then the string at `b`
does not end there, and its next byte, taken from zero, has the sign of the difference. -/
def NextByteFits (m : Mem) (a b len : ℕ) : Prop :=
  ∀ i, i + 1 = len → (∀ j < i, m (a + j) = m (b + j)) → m (a + i) ≠ m (b + i) →
    m (b + i) ≠ 0 ∧
      (-char (m (b + (i + 1)))).sign = (char (m (a + i)) - char (m (b + i))).sign

theorem char_inj {c d : UInt8} : char c = char d ↔ c = d := by
  rw [char, char, BitVec.toInt_inj]
  exact UInt8.toBitVec_inj

@[simp] theorem char_zero : char 0 = 0 := rfl

section
variable {m : Mem} {a b k n : ℕ} {s t : List UInt8}

theorem bmkStrncmp_eq_zero (hs : CStr m a s) (ht : CStr m b t) (hn : s.length < n) :
    bmkStrncmp m n a b = 0 ↔ s = t := by
  have hsub : ∀ u v : UInt8, u ≠ v → (u.toNat : Int) - v.toNat ≠ 0 := by
    intro u v huv h
    exact huv (UInt8.toNat_inj.mp (by omega))
  rw [hs.eq_iff ht]
  induction n generalizing s t a b with
  | zero => omega
  | succ n ih =>
    rw [bmkStrncmp]
    split
    next hne =>
      constructor
      · intro h
        exact absurd h (hsub _ _ hne)
      · intro h
        exact absurd (h 0 (Nat.zero_le _)) hne
    next heq =>
      rw [not_not] at heq
      split
      next h0 =>
        have hlen : s.length = 0 := Nat.le_zero.mp (hs.length_le h0)
        simp only [hlen, Nat.le_zero, forall_eq, Nat.add_zero, heq]
      next h0 =>
        match s, t, hs, ht with
        | [], _, hs, _ => exact absurd hs.stop h0
        | _ :: _, [], _, ht => exact absurd (heq.trans ht.stop) h0
        | c :: s, d :: t, hs, ht =>
          refine (ih hs.tail ht.tail (Nat.lt_of_succ_lt_succ hn)).trans ?_
          constructor
          · intro h j hj
            cases j with
            | zero => exact heq
            | succ j =>
              rw [Nat.add_comm j, ← Nat.add_assoc, ← Nat.add_assoc]
              exact h j (Nat.le_of_succ_le_succ hj)
          · intro h j hj
            rw [Nat.add_assoc, Nat.add_assoc, Nat.add_comm 1]
            exact h (j + 1) (Nat.succ_le_succ hj)

theorem strcmpLoop_agree (i : ℕ) (rA rB : List ℕ)
    (h : ∀ j < i, m (a + j) ≠ 0 ∧ m (a + j) = m (b + j)) :
    ∃ rA' rB', strcmpLoop m (i + k) ⟨a, b, rA, rB⟩ = strcmpLoop m k ⟨a + i, b + i, rA', rB'⟩ ∧
      (∀ x ∈ rA', x ∈ rA ∨ x < a + i) ∧ (∀ x ∈ rB', x ∈ rB ∨ x < b + i) := by
  induction i generalizing k with
  | zero => exact ⟨rA, rB, by simp, fun x hx => .inl hx, fun x hx => .inl hx⟩
  | succ i ih =>
    obtain ⟨hne, heq⟩ := h i (Nat.lt_succ_self i)
    obtain ⟨rA', rB', hrun, hA, hB⟩ := ih fun j hj => h j (Nat.lt_succ_of_lt hj)
    refine ⟨(a + i) :: rA', (b + i) :: rB', ?_, ?_, ?_⟩
    · rw [Nat.add_assoc, hrun, Nat.add_comm 1, strcmpLoop]
      rw [if_neg hne, if_pos heq]
      rfl
    · intro x hx
      rcases mem_cons.mp hx with rfl | hx
      · exact .inr (by omega)
      · exact (hA x hx).imp_right (by omega)
    · intro x hx
      rcases mem_cons.mp hx with rfl | hx
      · exact .inr (by omega)
      · exact (hB x hx).imp_right (by omega)

/-- Where the loop stops: at the end of `s` or at the first difference. -/
theorem exists_stop (hs : CStr m a s) (ht : CStr m b t) :
    ∃ i ≤ s.length, i ≤ t.length ∧ (∀ j < i, m (a + j) = m (b + j)) ∧
      (i = s.length ∨ i < s.length ∧ m (a + i) ≠ m (b + i)) := by
  have hex : ∃ i, i = s.length ∨ m (a + i) ≠ m (b + i) := ⟨_, .inl rfl⟩
  have hle : Nat.find hex ≤ s.length := Nat.find_min' hex (.inl rfl)
  have hagree : ∀ j < Nat.find hex, m (a + j) = m (b + j) := by
    intro j hj
    exact not_not.mp fun hne => Nat.find_min hex hj (.inr hne)
  refine ⟨Nat.find hex, hle, ?_, hagree, ?_⟩
  · by_contra hlt
    rw [not_le] at hlt
    exact hs.ne_zero (hlt.trans_le hle) ((hagree _ hlt).trans ht.stop)
  · rcases hle.eq_or_lt with heq | hlt
    · exact .inl heq
    · exact .inr ⟨hlt, (Nat.find_spec hex).resolve_left hlt.ne⟩

/-- The run of `bmk_strcmp`, with the place `i` where its loop stops.  Unless `i` is the last
character of the string at `a`, the result is the difference there. -/
theorem bmkStrcmp_run (hs : CStr m a s) (ht : CStr m b t) (hk : s.length < k) :
    ∃ i r, bmkStrcmp m k a b = some r ∧ i ≤ s.length ∧ i ≤ t.length ∧
      (∀ j < i, m (a + j) = m (b + j)) ∧ (i < s.length → m (a + i) ≠ m (b + i)) ∧
      (∀ x ∈ r.2.readA, x ≤ a + s.length) ∧
      (i + 1 ≠ s.length → r.1 = char (m (a + i)) - char (m (b + i)) ∧
        ∀ x ∈ r.2.readB, x ≤ b + t.length) ∧
      (i + 1 = s.length → r.1 = -char (m (b + (i + 1))) ∧ b + (i + 1) ∈ r.2.readB ∧
        ∀ x ∈ r.2.readB, x ≤ b + (i + 1)) := by
  obtain ⟨i, his, hit, hagree, hstop⟩ := exists_stop hs ht
  obtain ⟨k, rfl⟩ : ∃ k', k = i + (k' + 1) := ⟨k - i - 1, by omega⟩
  obtain ⟨rA, rB, hrun, hA, hB⟩ := strcmpLoop_agree (k := k + 1) i [] []
    fun j hj => ⟨hs.ne_zero (hj.trans_le his), hagree j hj⟩
  simp only [not_mem_nil, false_or] at hA hB
  rw [strcmpLoop] at hrun
  rcases hstop with rfl | ⟨hlt, hne⟩
  case inl =>
    -- the end of the string at `a`
    rw [if_pos hs.stop] at hrun
    refine ⟨s.length, _, by rw [bmkStrcmp, hrun, Option.map_some], his, hit, hagree,
      fun h => absurd h (lt_irrefl _), ?_, fun _ => ?_, fun h => by omega⟩
    · simp only [strcmpDiff, hs.stop, ne_eq, not_true_eq_false, if_false, mem_cons]
      rintro x (rfl | rfl | rfl | hx)
      · exact le_rfl
      · exact le_rfl
      · exact le_rfl
      · exact (hA x hx).le
    · simp only [strcmpDiff, hs.stop, ne_eq, not_true_eq_false, if_false, mem_cons, true_and]
      rintro x (rfl | hx)
      · omega
      · exact (hB x hx).le.trans (by omega)
  case inr =>
    rw [if_neg (hs.ne_zero hlt), if_neg hne] at hrun
    refine ⟨i, _, by rw [bmkStrcmp, hrun, Option.map_some], his, hit, hagree, fun _ => hne, ?_, ?_,
      ?_⟩
    · simp only [strcmpDiff]
      split
      next =>
        simp only [mem_cons]
        rintro x (rfl | rfl | rfl | hx)
        · omega
        · omega
        · omega
        · exact (hA x hx).le.trans (by omega)
      next =>
        simp only [mem_cons]
        rintro x (rfl | rfl | rfl | hx)
        · omega
        · omega
        · omega
        · exact (hA x hx).le.trans (by omega)
    · intro hlast
      have hnext : m (a + i + 1) ≠ 0 := hs.ne_zero (by omega : i + 1 < s.length)
      simp only [strcmpDiff, hnext, ne_eq, not_false_eq_true, if_true, Nat.add_sub_cancel,
        mem_cons, true_and]
      rintro x (rfl | rfl | hx)
      · omega
      · omega
      · exact (hB x hx).le.trans (by omega)
    · intro hlast
      have hnext : m (a + i + 1) = 0 := by
        rw [Nat.add_assoc, hlast]
        exact hs.stop
      simp only [strcmpDiff, hnext, ne_eq, not_true_eq_false, if_false, char_zero, zero_sub,
        mem_cons]
      refine ⟨rfl, .inl rfl, ?_⟩
      rintro x (rfl | rfl | hx)
      · exact le_rfl
      · omega
      · exact (hB x hx).le.trans (by omega)

/-- **When `bmk_strcmp` compares.** -/
theorem bmkStrcmp_iff (hs : CStr m a s) (ht : CStr m b t) (hk : s.length < k) :
    ∃ r, bmkStrcmp m k a b = some r ∧
      (Compares m a b s t r ↔ NextByteFits m a b s.length) := by
  obtain ⟨i, r, hrun, his, hit, hagree, hne, hA, hdiff, hlast⟩ := bmkStrcmp_run hs ht hk
  -- the first difference is where the loop stopped
  have hfirst : ∀ i' ≤ s.length, (∀ j < i', m (a + j) = m (b + j)) → m (a + i') ≠ m (b + i') →
      i' = i := by
    intro i' hle hag hne'
    rcases lt_trichotomy i' i with h | h | h
    · exact absurd (hagree i' h) hne'
    · exact h
    · exact absurd (hag i h) (hne (h.trans_le hle))
  have heq : s = t ↔ m (a + i) = m (b + i) := by
    rw [hs.eq_iff ht]
    constructor
    · exact fun h => h i his
    · intro h j hj
      have hi : i = s.length := by
        by_contra hlt
        exact hne (by omega) h
      rcases hj.lt_or_eq with hj | rfl
      · exact hagree j (hi ▸ hj)
      · exact hi ▸ h
  have hsub : ∀ c d : UInt8, char c - char d = 0 ↔ c = d := by
    intro c d
    rw [sub_eq_zero, char_inj]
  refine ⟨r, hrun, ?_⟩
  by_cases hend : i + 1 = s.length
  case neg =>
    obtain ⟨hval, hB⟩ := hdiff hend
    have hzero : r.1 = 0 ↔ s = t := by rw [hval, hsub, heq]
    refine iff_of_true ⟨hA, hB, hzero, ?_, ?_⟩ ?_
    · intro i' hle hag hne'
      rw [hfirst i' hle hag hne', hval]
    · intro n hn _
      rw [hzero, bmkStrncmp_eq_zero hs ht hn]
    · intro i' hi' hag hne'
      exact absurd (hfirst i' (by omega) hag hne' ▸ hi') hend
  case pos =>
    obtain ⟨hval, hmem, hB⟩ := hlast hend
    have hneq : m (a + i) ≠ m (b + i) := hne (by omega)
    constructor
    · intro h i' hi' hag hne'
      obtain rfl := hfirst i' (by omega) hag hne'
      have hlen := h.readB _ hmem
      refine ⟨ht.ne_zero (by omega), ?_⟩
      rw [← hval]
      exact h.sign i' his hag hne'
    · intro h
      obtain ⟨hb, hsign⟩ := h i hend hagree hneq
      have hlen : i < t.length := by
        by_contra hle
        rw [le_antisymm hit (not_lt.mp hle)] at hb
        exact hb ht.stop
      have hzero : r.1 = 0 ↔ s = t := by
        rw [heq, hval, ← Int.sign_eq_zero_iff_zero, hsign, Int.sign_eq_zero_iff_zero, hsub]
      refine ⟨hA, fun x hx => (hB x hx).trans (by omega), hzero, ?_, ?_⟩
      · intro i' hle hag hne'
        rw [hfirst i' hle hag hne', hval, hsign]
      · intro n hn _
        rw [hzero, bmkStrncmp_eq_zero hs ht hn]

end

/-- `abd` and `acd` differ before the last character. -/
theorem bmkStrcmp_abd_acd :
    ∃ r, bmkStrcmp (ofList [97, 98, 100, 0, 97, 99, 100, 0]) 4 0 4 = some r ∧
      Compares (ofList [97, 98, 100, 0, 97, 99, 100, 0]) 0 4 [97, 98, 100] [97, 99, 100] r := by
  obtain ⟨r, hr, h⟩ := bmkStrcmp_iff (m := ofList [97, 98, 100, 0, 97, 99, 100, 0]) (a := 0)
    (b := 4) (k := 4) (s := [97, 98, 100]) (t := [97, 99, 100]) (by decide) (by decide) (by decide)
  refine ⟨r, hr, h.mpr ?_⟩
  intro i hi hag _
  obtain rfl : i = 2 := Nat.succ.inj hi
  exact absurd (hag 1 (by decide)) (by decide)

/-- `ab` and `ac` compare equal. -/
theorem bmkStrcmp_ab_ac :
    CStr (ofList [97, 98, 0, 97, 99, 0]) 0 [97, 98] ∧
      CStr (ofList [97, 98, 0, 97, 99, 0]) 3 [97, 99] ∧
      ∃ r, bmkStrcmp (ofList [97, 98, 0, 97, 99, 0]) 3 0 3 = some r ∧ r.1 = 0 ∧
        ¬ Compares (ofList [97, 98, 0, 97, 99, 0]) 0 3 [97, 98] [97, 99] r := by
  refine ⟨by decide, by decide, _, rfl, rfl, ?_⟩
  intro h
  exact absurd (h.zero.mp rfl) (by decide)

/-! ## Copying -/

/-- The memory and the two pointers of a copy, and the addresses read and written so far. -/
structure Copy where
  mem : Mem
  d : ℕ
  s : ℕ
  loaded : List ℕ
  stored : List ℕ

namespace Copy

def start (m : Mem) (d s : ℕ) : Copy := ⟨m, d, s, [], []⟩

/-- `*d++ = v` -/
def put (c : Copy) (v : UInt8) : Copy :=
  { c with mem := Function.update c.mem c.d v, d := c.d + 1, stored := c.stored ++ [c.d] }

/-- `*d++ = *s++` -/
def move (c : Copy) : Copy :=
  { c.put (c.mem c.s) with s := c.s + 1, loaded := c.loaded ++ [c.s] }

/-- `while (n--) *dp++ = *sp++;` -/
def byteLoop : ℕ → Copy → Copy
  | 0, c => c
  | n + 1, c => byteLoop n c.move

/-- `while (n && (*d++ = *s++)) n--;` with the `n` that is left. -/
def strncpyLoop : ℕ → Copy → ℕ × Copy
  | 0, c => (0, c)
  | n + 1, c => if c.mem c.s = 0 then (n + 1, c.move) else strncpyLoop n c.move

/-- `while (n--) *d++ = '\0';` -/
def padLoop : ℕ → Copy → Copy
  | 0, c => c
  | n + 1, c => padLoop n (c.put 0)

/-- One `movs` of a unit of `w` bytes. -/
def movs (w : ℕ) (c : Copy) : Copy where
  mem := write c.mem c.d (read c.mem c.s w)
  d := c.d + w
  s := c.s + w
  loaded := c.loaded ++ List.range' c.s w
  stored := c.stored ++ List.range' c.d w

/-- `rep movs` with `units` in the counter. -/
def repMovs (w : ℕ) : ℕ → Copy → Copy
  | 0, c => c
  | units + 1, c => repMovs w units (c.movs w)

/-- `while ((unsigned long) dp & (sizeof(unsigned long) - 1))`, for at most `k` evaluations of the
condition. -/
def alignLoop (w : ℕ) : ℕ → ℕ → Copy → Option (ℕ × Copy)
  | 0, _, _ => none
  | k + 1, n, c => if c.d &&& (w - 1) ≠ 0 then alignLoop w k (n - 1) c.move else some (n, c)

end Copy

open Copy

def bmkStrncpy (m : Mem) (d s n : ℕ) : Copy :=
  let r := strncpyLoop n (start m d s)
  padLoop r.1 r.2

/-- The two targets that have the assembler path. -/
inductive Arch
  | i386
  | x8664
  deriving DecidableEq, Repr

/-- `sizeof(unsigned long)`, and what `NETDOM_MOVS` moves. -/
def Arch.sizeofLong : Arch → ℕ
  | .i386 => 4
  | .x8664 => 8

/-- `bmk_mempcpy`; the pointer that it returns is the last `d`. -/
def bmkMempcpy (arch : Arch) (k : ℕ) (m : Mem) (d s n : ℕ) : Option Copy :=
  let w := arch.sizeofLong
  if 48 ≤ n then
    (alignLoop w k n (start m d s)).map fun r =>
      repMovs 1 (r.1 &&& (w - 1)) (repMovs w (r.1 / w) r.2)
  else some (repMovs 1 n (start m d s))

section
variable {c : Copy} {m : Mem} {d s n w k i j x : ℕ} {t : List UInt8}

namespace Copy

theorem byteLoop_add (n k : ℕ) (c : Copy) : byteLoop (n + k) c = byteLoop k (byteLoop n c) := by
  induction n generalizing c with
  | zero => rw [Nat.zero_add, byteLoop]
  | succ n ih => rw [Nat.add_right_comm, byteLoop, byteLoop, ih]

theorem byteLoop_succ (n : ℕ) (c : Copy) : byteLoop (n + 1) c = (byteLoop n c).move := by
  rw [byteLoop_add, byteLoop, byteLoop]

@[simp] theorem byteLoop_d (n : ℕ) (c : Copy) : (byteLoop n c).d = c.d + n := by
  induction n with
  | zero => rfl
  | succ n ih =>
    rw [byteLoop_succ]
    exact congrArg (· + 1) ih

@[simp] theorem byteLoop_s (n : ℕ) (c : Copy) : (byteLoop n c).s = c.s + n := by
  induction n with
  | zero => rfl
  | succ n ih =>
    rw [byteLoop_succ]
    exact congrArg (· + 1) ih

theorem byteLoop_stored (n : ℕ) (c : Copy) : (byteLoop n c).stored = c.stored ++ range' c.d n := by
  induction n with
  | zero => simp [byteLoop]
  | succ n ih =>
    rw [byteLoop_succ, range'_1_concat, ← append_assoc, ← ih, ← byteLoop_d]
    rfl

theorem byteLoop_loaded (n : ℕ) (c : Copy) : (byteLoop n c).loaded = c.loaded ++ range' c.s n := by
  induction n with
  | zero => simp [byteLoop]
  | succ n ih =>
    rw [byteLoop_succ, range'_1_concat, ← append_assoc, ← ih, ← byteLoop_s]
    rfl

theorem move_mem_of_ne (h : x ≠ c.d) : c.move.mem x = c.mem x := Function.update_of_ne h _ _

theorem byteLoop_mem_apart (h : x < c.d ∨ c.d + n ≤ x) : (byteLoop n c).mem x = c.mem x := by
  induction n with
  | zero => rfl
  | succ n ih =>
    rw [byteLoop_succ, move_mem_of_ne (by rw [byteLoop_d]; omega)]
    exact ih (by omega)

theorem byteLoop_mem_at (h : i < n) :
    (byteLoop n c).mem (c.d + i) = (byteLoop i c).mem (c.s + i) := by
  obtain ⟨k, rfl⟩ : ∃ k, n = i + 1 + k := ⟨n - (i + 1), by omega⟩
  rw [byteLoop_add, byteLoop_mem_apart (by rw [byteLoop_d]; omega), byteLoop_succ]
  have hread : (byteLoop i c).move.mem (byteLoop i c).d = (byteLoop i c).mem (byteLoop i c).s :=
    Function.update_self _ _ _
  rwa [byteLoop_d, byteLoop_s] at hread

theorem padLoop_stored (n : ℕ) (c : Copy) : (padLoop n c).stored = c.stored ++ range' c.d n := by
  induction n generalizing c with
  | zero => simp [padLoop]
  | succ n ih =>
    rw [padLoop, ih, range'_succ, put]
    simp

/-- The loop of `bmk_strncpy`: it copies `n` bytes that are not zero, or it stops after a zero,
which it has copied and not counted. -/
theorem strncpyLoop_cases (n : ℕ) (c : Copy) :
    (strncpyLoop n c = (0, byteLoop n c) ∧ ∀ i < n, (byteLoop i c).mem (c.s + i) ≠ 0) ∨
      ∃ i < n, strncpyLoop n c = (n - i, byteLoop (i + 1) c) ∧
        (byteLoop i c).mem (c.s + i) = 0 := by
  induction n generalizing c with
  | zero => exact .inl ⟨rfl, fun i hi => absurd hi (Nat.not_lt_zero i)⟩
  | succ n ih =>
    rw [strncpyLoop]
    split
    next h0 => exact .inr ⟨0, Nat.succ_pos n, rfl, h0⟩
    next h0 =>
      have hs : ∀ i, c.move.s + i = c.s + (i + 1) := fun i => by
        rw [Nat.add_comm i, ← Nat.add_assoc]
        rfl
      rcases ih c.move with ⟨hrun, hne⟩ | ⟨i, hi, hrun, hz⟩
      · refine .inl ⟨hrun, fun i hi => ?_⟩
        cases i with
        | zero => exact h0
        | succ i => exact hs i ▸ hne i (Nat.lt_of_succ_lt_succ hi)
      · refine .inr ⟨i + 1, Nat.succ_lt_succ hi, ?_, hs i ▸ hz⟩
        rw [hrun, Nat.succ_sub_succ]
        rfl

end Copy

/-- What `bmk_strncpy` is to do with the string `t`: it writes the `n` bytes of the destination,
which become the first characters and zeros behind them, and nothing else changes. -/
structure Strncpied (m : Mem) (d n : ℕ) (t : List UInt8) (c : Copy) : Prop where
  stored : c.stored = List.range' d n
  copied : ∀ i < n, c.mem (d + i) = t.getD i 0
  rest : ∀ x, d + n ≤ x → c.mem x = m x

/-- Where the destination starts inside the part of the source that is copied, the bytes that are
written over are the ones that are written. -/
def OverlapFits (m : Mem) (d s n : ℕ) : Prop := s < d → ∀ i, i + (d - s) < n → m (d + i) = m (s + i)

/-- Under that condition the round `j` reads the byte that was at the source at the start. -/
theorem byteLoop_source (h : OverlapFits m d s n) :
    ∀ j < n, (byteLoop j (start m d s)).mem (s + j) = m (s + j) := by
  intro j
  induction j using Nat.strong_induction_on with
  | _ j ih =>
    intro hj
    by_cases hin : d ≤ s + j ∧ s < d
    · -- this byte was written in an earlier round
      obtain ⟨i, hi⟩ : ∃ i, s + j = d + i := ⟨s + j - d, by omega⟩
      have hlt : i < j := by omega
      rw [hi]
      have hat : (byteLoop j (start m d s)).mem (d + i) = (byteLoop i (start m d s)).mem (s + i) :=
        byteLoop_mem_at hlt
      rw [hat, ih i hlt (by omega)]
      exact (h hin.2 i (by omega)).symm
    · exact byteLoop_mem_apart (by show s + j < d ∨ d + j ≤ s + j; omega)

/-- **When `bmk_strncpy` stays inside its `n` bytes.** -/
theorem bmkStrncpy_iff (h : CStr m s t) :
    Strncpied m d n t (bmkStrncpy m d s n) ↔ n ≤ t.length ∧ OverlapFits m d s n := by
  have hsrc : ∀ i < t.length, t.getD i 0 = m (s + i) := by
    intro i hi
    rw [getD_eq_getElem _ _ hi, h.text.get hi]
  constructor
  · intro hc
    rcases strncpyLoop_cases n (start m d s) with ⟨hrun, hne⟩ | ⟨i, hi, hrun, -⟩
    case inr =>
      -- a zero was copied: one byte too many
      have hlen := congrArg length hc.stored
      rw [bmkStrncpy, hrun, padLoop_stored, byteLoop_stored] at hlen
      simp only [start, nil_append, length_append, length_range'] at hlen
      omega
    case inl =>
      have hres : bmkStrncpy m d s n = byteLoop n (start m d s) := by
        rw [bmkStrncpy, hrun]
        rfl
      have hfin : ∀ i < n, (byteLoop i (start m d s)).mem (s + i) = t.getD i 0 := by
        intro i hi
        rw [← hc.copied i hi, hres]
        exact (byteLoop_mem_at hi).symm
      have hle : n ≤ t.length := by
        by_contra hlt
        rw [not_le] at hlt
        refine hne _ hlt ((hfin _ hlt).trans ?_)
        rw [getD_eq_default _ _ le_rfl]
      refine ⟨hle, ?_⟩
      intro hsd i hi
      have hdi : s + (i + (d - s)) = d + i := by omega
      have hover : (byteLoop (i + (d - s)) (start m d s)).mem (d + i)
          = (byteLoop i (start m d s)).mem (s + i) :=
        byteLoop_mem_at (by omega)
      calc m (d + i) = t.getD (i + (d - s)) 0 := by rw [hsrc _ (by omega), hdi]
        _ = (byteLoop (i + (d - s)) (start m d s)).mem (s + (i + (d - s))) := (hfin _ hi).symm
        _ = (byteLoop i (start m d s)).mem (s + i) := by rw [hdi, hover]
        _ = t.getD i 0 := hfin i (by omega)
        _ = m (s + i) := hsrc i (by omega)
  · rintro ⟨hle, hover⟩
    have hread := byteLoop_source hover
    rcases strncpyLoop_cases n (start m d s) with ⟨hrun, -⟩ | ⟨i, hi, -, hz⟩
    case inr =>
      have hzero : m (s + i) = 0 := (hread i hi).symm.trans hz
      exact absurd hzero (h.ne_zero (hi.trans_le hle))
    case inl =>
      have hres : bmkStrncpy m d s n = byteLoop n (start m d s) := by
        rw [bmkStrncpy, hrun]
        rfl
      rw [hres]
      refine ⟨?_, ?_, ?_⟩
      · rw [byteLoop_stored]
        rfl
      · intro i hi
        rw [hsrc i (by omega), ← hread i hi]
        exact byteLoop_mem_at hi
      · intro x hx
        exact byteLoop_mem_apart (.inr hx)

/-- Two characters of `abc`. -/
theorem bmkStrncpy_two :
    Strncpied (ofList [97, 98, 99, 0]) 10 2 [97, 98, 99] (bmkStrncpy (ofList [97, 98, 99, 0]) 10 0 2) := by
  refine (bmkStrncpy_iff (by decide)).mpr ⟨by decide, ?_⟩
  intro _ i hi
  omega

/-- `a` into two bytes: the third one is cleared. -/
theorem bmkStrncpy_third_byte :
    CStr (ofList [97, 0, 0, 0, 0, 0, 7]) 0 [97] ∧
      (bmkStrncpy (ofList [97, 0, 0, 0, 0, 0, 7]) 4 0 2).stored = [4, 5, 6] ∧
      (bmkStrncpy (ofList [97, 0, 0, 0, 0, 0, 7]) 4 0 2).mem 6 = 0 ∧
      ¬ Strncpied (ofList [97, 0, 0, 0, 0, 0, 7]) 4 2 [97]
        (bmkStrncpy (ofList [97, 0, 0, 0, 0, 0, 7]) 4 0 2) := by
  refine ⟨by decide, by decide, by decide, ?_⟩
  intro h
  exact absurd (h.rest 6 (by decide)) (by decide)

theorem byteLoop_mem_write (h : c.d + n ≤ c.s ∨ c.s + n ≤ c.d) :
    (byteLoop n c).mem = write c.mem c.d (read c.mem c.s n) := by
  funext x
  by_cases hx : c.d ≤ x ∧ x < c.d + n
  · obtain ⟨i, rfl⟩ : ∃ i, x = c.d + i := ⟨x - c.d, by omega⟩
    have hi : i < (read c.mem c.s n).length := by
      rw [length_read]
      omega
    rw [byteLoop_mem_at (by omega), byteLoop_mem_apart (by omega), write_at hi]
    simp [Bytes.read]
  · rw [byteLoop_mem_apart (by omega), write_apart (by rw [length_read]; omega)]

theorem movs_eq_byteLoop (h : c.d + w ≤ c.s ∨ c.s + w ≤ c.d) : c.movs w = byteLoop w c := by
  have hmem := byteLoop_mem_write h
  have hd := byteLoop_d w c
  have hs := byteLoop_s w c
  have hl := byteLoop_loaded w c
  have hst := byteLoop_stored w c
  generalize byteLoop w c = c' at *
  cases c'
  subst hmem hd hs hl hst
  rfl

theorem repMovs_eq_byteLoop {units : ℕ} (h : c.d + units * w ≤ c.s ∨ c.s + units * w ≤ c.d) :
    repMovs w units c = byteLoop (units * w) c := by
  induction units generalizing c with
  | zero => rw [Nat.zero_mul, repMovs, byteLoop]
  | succ units ih =>
    rw [Nat.succ_mul] at h
    have hunit : c.movs w = byteLoop w c := movs_eq_byteLoop (by omega)
    rw [repMovs, hunit, ih (by rw [byteLoop_d, byteLoop_s]; omega), ← byteLoop_add, Nat.succ_mul,
      Nat.add_comm]

theorem Arch.and_mask (arch : Arch) (x : ℕ) :
    x &&& (arch.sizeofLong - 1) = x % arch.sizeofLong := by
  cases arch with
  | i386 => exact Nat.and_two_pow_sub_one_eq_mod x 2
  | x8664 => exact Nat.and_two_pow_sub_one_eq_mod x 3

theorem Arch.exists_aligned (arch : Arch) (x : ℕ) :
    ∃ i < arch.sizeofLong, (x + i) % arch.sizeofLong = 0 ∧
      ∀ j < i, (x + j) % arch.sizeofLong ≠ 0 := by
  cases arch with
  | i386 =>
    refine ⟨(4 - x % 4) % 4, Nat.mod_lt _ (by decide), ?_, fun j hj => ?_⟩
    · show (x + (4 - x % 4) % 4) % 4 = 0
      omega
    · show (x + j) % 4 ≠ 0
      omega
  | x8664 =>
    refine ⟨(8 - x % 8) % 8, Nat.mod_lt _ (by decide), ?_, fun j hj => ?_⟩
    · show (x + (8 - x % 8) % 8) % 8 = 0
      omega
    · show (x + j) % 8 ≠ 0
      omega

theorem alignLoop_byteLoop {arch : Arch} (i : ℕ) (hi : (c.d + i) % arch.sizeofLong = 0)
    (hj : ∀ j < i, (c.d + j) % arch.sizeofLong ≠ 0) (hk : i < k) :
    alignLoop arch.sizeofLong k n c = some (n - i, byteLoop i c) := by
  obtain ⟨k, rfl⟩ : ∃ k', k = k' + 1 := ⟨k - 1, by omega⟩
  induction i generalizing k n c with
  | zero =>
    rw [Nat.add_zero] at hi
    rw [alignLoop, arch.and_mask, if_neg (not_not.mpr hi)]
    rfl
  | succ i ih =>
    have hmove : ∀ j, c.move.d + j = c.d + (j + 1) := fun j => by
      rw [Nat.add_comm j, ← Nat.add_assoc]
      rfl
    obtain ⟨k, rfl⟩ : ∃ k', k = k' + 1 := ⟨k - 1, by omega⟩
    have hrec : alignLoop arch.sizeofLong (k + 1) (n - 1) c.move
        = some (n - 1 - i, byteLoop i c.move) := by
      refine ih ?_ ?_ k (by omega)
      · rw [hmove]
        exact hi
      · intro j hlt
        rw [hmove]
        exact hj (j + 1) (Nat.succ_lt_succ hlt)
    have h0 : c.d % arch.sizeofLong ≠ 0 := hj 0 (Nat.succ_pos i)
    rw [alignLoop, arch.and_mask, if_pos h0, hrec, Nat.sub_sub, Nat.add_comm 1]
    rfl

/-- **`bmk_mempcpy` is the byte loop** over regions that are apart: it leaves the same memory,
writes the `n` bytes of the destination and reads the `n` bytes of the source, and returns the end of
the destination. -/
theorem bmkMempcpy_byteLoop (arch : Arch) (hk : arch.sizeofLong ≤ k) (h : d + n ≤ s ∨ s + n ≤ d) :
    ∃ c, bmkMempcpy arch k m d s n = some c ∧ c.mem = (byteLoop n (start m d s)).mem ∧
      c.d = d + n ∧ c.stored = range' d n ∧ c.loaded = range' s n ∧
      ∀ x, x < d ∨ d + n ≤ x → c.mem x = m x := by
  suffices hrun : bmkMempcpy arch k m d s n = some (byteLoop n (start m d s)) by
    refine ⟨_, hrun, rfl, byteLoop_d n _, ?_, ?_, ?_⟩
    · rw [byteLoop_stored]
      rfl
    · rw [byteLoop_loaded]
      rfl
    · intro x hx
      exact byteLoop_mem_apart hx
  have hbytes : ∀ {c : Copy} {units : ℕ}, (c.d + units ≤ c.s ∨ c.s + units ≤ c.d) →
      repMovs 1 units c = byteLoop units c := fun {c units} hsep => by
    rw [repMovs_eq_byteLoop (by rwa [Nat.mul_one]), Nat.mul_one]
  rw [bmkMempcpy]
  split
  next hlong =>
    obtain ⟨i, hi, hmod, hlt⟩ := arch.exists_aligned d
    have hsmall : arch.sizeofLong ≤ 8 := by cases arch <;> decide
    have hparts := Nat.div_add_mod (n - i) arch.sizeofLong
    rw [Nat.mul_comm] at hparts
    have hwords : repMovs arch.sizeofLong ((n - i) / arch.sizeofLong) (byteLoop i (start m d s))
        = byteLoop ((n - i) / arch.sizeofLong * arch.sizeofLong) (byteLoop i (start m d s)) := by
      apply repMovs_eq_byteLoop
      simp only [byteLoop_d, byteLoop_s, start]
      omega
    rw [alignLoop_byteLoop i hmod hlt (by omega), Option.map_some, arch.and_mask]
    simp only
    rw [hwords, ← byteLoop_add, hbytes, ← byteLoop_add]
    · congr 2
      omega
    · simp only [byteLoop_d, byteLoop_s, start]
      omega
  next =>
    rw [hbytes]
    exact h

/-- Five bytes to the next word, five words and five bytes. -/
theorem bmkMempcpy_fifty :
    ∃ c, bmkMempcpy .x8664 8 (ofList [1, 2, 3]) 103 0 50 = some c ∧
      c.mem = (byteLoop 50 (start (ofList [1, 2, 3]) 103 0)).mem ∧ c.d = 103 + 50 ∧
      c.stored = range' 103 50 ∧ c.loaded = range' 0 50 ∧
      ∀ x, x < 103 ∨ 103 + 50 ≤ x → c.mem x = ofList [1, 2, 3] x :=
  bmkMempcpy_byteLoop .x8664 (by decide) (by decide)

end

end Librettos.BmkString
