/-
# `DifficultyRules.Proofs.HashCount` — how many hashes meet a difficulty

A target stands for work because a hash meets it by chance only, and the work is the
number of hashes that have to be tried on average.  For that, the hashes that meet a
target have to be counted.  There are `2 ^ 256` hashes, and they are compared with the
target as numbers, so one more than the target should pass, the hash of zero being the
one more.

This is so because no two hashes are the same number and every number of 256 bits is that
of a hash.  The number meant here is little-endian, and a hash is kept as the number that
its bytes spell in order, so the bytes have to be taken apart and put together again.

    hash  ——value——>  number  ——digits, reversed——>  bytes  ——ofDigits——>  number

The numbers are those below `256 ^ 32`, the bytes are lists of 32, and every arrow meets
each of them exactly once.  The whole way is `littleEndian` (`littleEndian_eq`), so this
does so too (`bijOn_littleEndian`).

The main statement, `passing_counted`, counts the hashes that pass and compares their
number with the work of the target, which is `2 ^ 256` divided by it, rounded down.
-/
import Mathlib.Data.Nat.Digits.Lemmas
import Mathlib.Data.Set.Card
import Mathlib.Order.Interval.Set.Nat
import DifficultyRules.ProofOfWork

namespace DifficultyRules

/-! ## The bytes of a number, and their reverse -/

/-- The lowest byte of a number comes first, then the bytes of the rest. -/
theorem digitsAppend_succ (count n : Nat) :
    Nat.digitsAppend 256 (count + 1) n = n % 256 :: Nat.digitsAppend 256 count (n / 256) := by
  rcases Nat.eq_zero_or_pos n with rfl | hpos
  · simp only [Nat.digitsAppend, Nat.digits_zero, Nat.zero_div, List.nil_append, List.length_nil,
      Nat.sub_zero, List.replicate_succ, Nat.zero_mod]
  · rw [Nat.digitsAppend, Nat.digits_def' (by decide) hpos, List.cons_append, List.length_cons,
      Nat.add_sub_add_right, Nat.digitsAppend]

/-- To reverse the bytes of a number is to read them from the other end. -/
theorem reverseBytes_eq {count n : Nat} (h : n < 256 ^ count) :
    reverseBytes count n = Nat.ofDigits 256 (Nat.digitsAppend 256 count n).reverse := by
  induction count generalizing n with
  | zero =>
      obtain rfl : n = 0 := by rwa [pow_zero, Nat.lt_one_iff] at h
      rfl
  | succ count ih =>
      have hrest : n / 256 < 256 ^ count := by
        rwa [Nat.div_lt_iff_lt_mul (by decide), ← pow_succ]
      have hlength : (Nat.digitsAppend 256 count (n / 256)).length = count :=
        Nat.length_digitsAppend (by decide) count hrest
      rw [digitsAppend_succ, List.reverse_cons, Nat.ofDigits_append, Nat.ofDigits_singleton,
        List.length_reverse, hlength, reverseBytes, ih hrest, Nat.shiftLeft_eq, Nat.pow_mul]
      ring

/-- The lists of so many bytes. -/
def byteLists (count : Nat) : Set (List Nat) := {bs | bs.length = count ∧ ∀ b ∈ bs, b < 256}

theorem bijOn_reverse (count : Nat) :
    Set.BijOn List.reverse (byteLists count) (byteLists count) := by
  have hmaps : Set.MapsTo List.reverse (byteLists count) (byteLists count) := by
    rintro bs ⟨hlength, hbytes⟩
    exact ⟨by rw [List.length_reverse, hlength], fun b hb => hbytes b (List.mem_reverse.1 hb)⟩
  have hinv : Set.InvOn List.reverse List.reverse (byteLists count) (byteLists count) :=
    ⟨fun bs _ => List.reverse_reverse bs, fun bs _ => List.reverse_reverse bs⟩
  exact hinv.bijOn hmaps hmaps

namespace Hash

/-- The 32 bytes of a hash in order, the most significant of its number first. -/
def bytes (h : Hash) : List Nat := (Nat.digitsAppend 256 32 h.value).reverse

theorem value_lt (h : Hash) : h.value < 256 ^ 32 := h.lt

/-- Little-endian is base 256, with the first byte the least significant. -/
theorem littleEndian_eq (h : Hash) : h.littleEndian = Nat.ofDigits 256 h.bytes :=
  reverseBytes_eq h.value_lt

/-! ## Hashes, bytes and numbers -/

theorem bijOn_value : Set.BijOn value Set.univ {n | n < 256 ^ 32} :=
  ⟨fun h _ => h.value_lt, fun _ _ _ _ => Hash.ext, fun n hn => ⟨⟨n, hn⟩, trivial, rfl⟩⟩

/-- Any 32 bytes are those of one hash. -/
theorem bijOn_bytes : Set.BijOn bytes Set.univ (byteLists 32) :=
  (bijOn_reverse 32).comp ((Nat.bijOn_digitsAppend (by decide) 32).comp bijOn_value)

/-- Read backwards, every number of 256 bits is that of one hash. -/
theorem bijOn_littleEndian : Set.BijOn littleEndian Set.univ {n | n < 256 ^ 32} := by
  refine ((Nat.bijOn_ofDigits (by decide) 32).comp bijOn_bytes).congr fun h _ => ?_
  exact h.littleEndian_eq.symm

theorem card_eq : Nat.card Hash = 2 ^ 256 := by
  rw [← Set.ncard_univ, bijOn_value.ncard_eq]
  exact Set.ncard_Iio_nat _

end Hash

/-! ## The hashes that pass -/

/-- Work is a quotient rounded down: as many times the numbers up to the target go into `2 ^ 256`,
and no more. -/
theorem Target.work_mul_le_lt (t : Target) :
    t.work * (t.value + 1) ≤ 2 ^ 256 ∧ 2 ^ 256 < (t.work + 1) * (t.value + 1) := by
  have hwork : t.work = 2 ^ 256 / (t.value + 1) := by rw [Target.work, Nat.one_shiftLeft]
  rw [hwork]
  refine ⟨Nat.div_mul_le_self .., ?_⟩
  rw [Nat.mul_comm]
  exact Nat.lt_mul_div_succ _ (Nat.succ_pos _)

namespace Compact

/-- The hashes that meet the bits. -/
def passing (c : Compact) : Set Hash := {h | h.meets c}

variable {c : Compact} {t : Target}

theorem mem_passing_iff (hc : c.toTarget = .ok t) {h : Hash} :
    h ∈ c.passing ↔ h.littleEndian ≤ t.value := by
  show h.meets c = true ↔ _
  simp only [Hash.meets, hc, decide_eq_true_eq]

/-- The hashes that pass are, as numbers, those up to the target. -/
theorem bijOn_passing (hc : c.toTarget = .ok t) :
    Set.BijOn Hash.littleEndian c.passing (Set.Iic t.value) := by
  refine ⟨fun h hh => (mem_passing_iff hc).1 hh, ?_, fun n hn => ?_⟩
  · exact Hash.bijOn_littleEndian.injOn.mono (Set.subset_univ _)
  · obtain ⟨h, -, rfl⟩ := Hash.bijOn_littleEndian.surjOn (Nat.lt_of_le_of_lt hn t.lt)
    exact ⟨h, (mem_passing_iff hc).2 hn, rfl⟩

theorem ncard_passing (hc : c.toTarget = .ok t) : c.passing.ncard = t.value + 1 := by
  rw [(bijOn_passing hc).ncard_eq, Set.ncard_Iic_nat]

/-- Bits that stand for no target are met by nothing. -/
theorem passing_of_error {e : DecodeError} (hc : c.toTarget = .error e) : c.passing = ∅ := by
  refine Set.eq_empty_of_forall_notMem fun h hh => ?_
  have hmeets : h.meets c = true := hh
  simp only [Hash.meets, hc] at hmeets
  cases hmeets

/-- An easier target lets pass whatever a harder one does. -/
theorem passing_mono {d : Compact} {u : Target} (hc : c.toTarget = .ok t)
    (hd : d.toTarget = .ok u) (hle : t ≤ u) : c.passing ⊆ d.passing := by
  intro h hh
  rw [mem_passing_iff hc] at hh
  exact (mem_passing_iff hd).2 (Nat.le_trans hh hle)

/-- **Proof of work counts.**  Hashes are 32 bytes, any of which may occur, and are compared as
the little-endian numbers of these bytes.  Of the `2 ^ 256` there are, one more than the target
pass, or none if the bits stand for no target.  The work of the target is the number of all hashes
divided by that of those that pass, rounded down.  Of two targets, the easier lets pass what the
harder does. -/
theorem passing_counted :
    (Set.BijOn Hash.bytes Set.univ (byteLists 32) ∧
      Nat.card Hash = 2 ^ 256 ∧ ∀ h : Hash, h.littleEndian = Nat.ofDigits 256 h.bytes) ∧
    (∀ (c : Compact) (t : Target), c.toTarget = .ok t →
      c.passing.ncard = t.value + 1 ∧ t.work * c.passing.ncard ≤ 2 ^ 256 ∧
        2 ^ 256 < (t.work + 1) * c.passing.ncard) ∧
    (∀ (c : Compact) (e : DecodeError), c.toTarget = .error e → c.passing = ∅) ∧
    ∀ (a b : Compact) (s t : Target), a.toTarget = .ok s → b.toTarget = .ok t → s ≤ t →
      ∀ h : Hash, h.meets a → h.meets b := by
  refine ⟨⟨Hash.bijOn_bytes, Hash.card_eq, Hash.littleEndian_eq⟩, fun c t hc => ?counted,
    fun c e hc => passing_of_error hc, fun a b s t ha hb hle h => ?easier⟩
  case counted =>
    rw [ncard_passing hc]
    exact ⟨rfl, t.work_mul_le_lt⟩
  case easier =>
    intro hh
    exact passing_mono ha hb hle hh

/-- A hash may begin with what would make a large number, but not end with it. -/
example : (⟨0xff <<< 248, by decide⟩ : Hash).meets ⟨0x1d00ffff, by decide⟩ = true ∧
    (⟨0xff, by decide⟩ : Hash).meets ⟨0x1d00ffff, by decide⟩ = false := by
  decide

end Compact
end DifficultyRules
