import MiniPi.Env.HashMap
import Mathlib.NumberTheory.Bertrand

/-!
# The size of a new table

`isprime` is a correct primality test for the odd numbers from five on whose square
roots are far from overflowing, and the loop of `hcreate_r` therefore ends at a
prime.
-/

namespace MiniPi.Env

/-- A number without divisors up to its square root is prime. -/
theorem prime_of_no_small_divisor {n : ℕ} (div : ℕ) (hn : 2 ≤ n) (hdiv : n ≤ div * div)
    (h : ∀ d, 2 ≤ d → d ≤ div → ¬d ∣ n) : n.Prime := by
  by_contra hp
  have hsq := Nat.minFac_sq_le_self (by omega) hp
  have htwo := (Nat.minFac_prime (show n ≠ 1 by omega)).two_le
  refine h n.minFac htwo ?_ (Nat.minFac_dvd n)
  by_contra hlt
  have : (div + 1) * (div + 1) ≤ n.minFac * n.minFac :=
    Nat.mul_le_mul (by omega) (by omega)
  rw [pow_two] at hsq
  nlinarith

/-- The divisor at which the loop of `isprime` stops decides whether the number is
prime.  The loop has passed `div - 2`, so `div * div` does not overflow. -/
theorem isprimeLoop_spec {number : ℕ} (h5 : 5 ≤ number) (hodd : number % 2 = 1)
    (hlt : number < 2 ^ 31) :
    ∀ (fuel div : ℕ), 3 ≤ div → div % 2 = 1 → number < div + 2 * fuel →
      (∀ d, 2 ≤ d → d < div → ¬d ∣ number) → (div = 3 ∨ (div - 2) * (div - 2) < number) →
      ∃ div', isprimeLoop number fuel div = some div' ∧ (number % div' ≠ 0 ↔ number.Prime) := by
  intro fuel
  induction fuel with
  | zero =>
      intro div h3 hd hf hnone hsq
      exact absurd (dvd_refl number) (hnone number (by omega) (by omega))
  | succ fuel ih =>
      intro div h3 hd hf hnone hsq
      have hsmall : div * div < 2 ^ 32 := by
        by_contra hbig
        have hdiv : div < 65536 := by
          by_contra hge
          rcases hsq with rfl | hsq
          · omega
          · have := Nat.mul_le_mul (show 65534 ≤ div - 2 by omega) (show 65534 ≤ div - 2 by omega)
            omega
        have := Nat.mul_le_mul (show div ≤ 65535 by omega) (show div ≤ 65535 by omega)
        omega
      rw [isprimeLoop, Nat.mod_eq_of_lt hsmall]
      split_ifs with hgo
      · refine ih (div + 2) (by omega) (by omega) (by omega) (fun d hd₂ hdlt hdvd ↦ ?_)
          (Or.inr (by simpa using hgo.1))
        rcases Nat.lt_trichotomy d div with hlt' | rfl | hgt
        · exact hnone d hd₂ hlt' hdvd
        · exact hgo.2 (Nat.mod_eq_zero_of_dvd hdvd)
        · -- an even number does not divide an odd one
          have : 2 ∣ number := (show 2 ∣ d by omega).trans hdvd
          omega
      · refine ⟨div, rfl, fun hmod ↦ ?_, fun hp hmod ↦ ?_⟩
        · refine prime_of_no_small_divisor div (by omega) ?_ fun d hd₂ hdle hdvd ↦ ?_
          · by_contra hsq'
            exact hgo ⟨not_le.mp hsq', hmod⟩
          · rcases Nat.lt_or_eq_of_le hdle with hlt' | rfl
            · exact hnone d hd₂ hlt' hdvd
            · exact hmod (Nat.mod_eq_zero_of_dvd hdvd)
        · have heq : div = number :=
            ((Nat.dvd_prime hp).mp (Nat.dvd_of_mod_eq_zero hmod)).resolve_left (by omega)
          subst heq
          rcases hsq with rfl | hsq
          · omega
          · obtain ⟨k, rfl⟩ := Nat.exists_eq_add_of_le h5
            have : (5 + k - 2) * (5 + k - 2) = k * k + 6 * k + 9 := by
              rw [show 5 + k - 2 = k + 3 by omega]
              ring
            omega

theorem isprime_eq {number : ℕ} (h5 : 5 ≤ number) (hodd : number % 2 = 1)
    (hlt : number < 2 ^ 31) : isprime number = some (decide number.Prime) := by
  obtain ⟨div, hloop, hiff⟩ := isprimeLoop_spec h5 hodd hlt number 3 le_rfl (by omega) (by omega)
    (fun d hd₂ hd₃ hdvd ↦ by
      obtain rfl : d = 2 := by omega
      omega) (Or.inl rfl)
  rw [isprime, hloop, Option.map_some, Option.some.injEq, Bool.eq_iff_iff, bne_iff_ne, hiff,
    decide_eq_true_iff]

theorem hcreateLoop_spec {p : ℕ} (hp : p.Prime) (hlt : p < 2 ^ 31) :
    ∀ (fuel nel : ℕ), 5 ≤ nel → nel % 2 = 1 → nel ≤ p → p < nel + 2 * fuel →
      ∃ size, hcreateLoop fuel nel = some size ∧ size.Prime ∧ nel ≤ size := by
  intro fuel
  induction fuel with
  | zero => intro nel h5 hodd hle hf; omega
  | succ fuel ih =>
      intro nel h5 hodd hle hf
      rw [hcreateLoop, isprime_eq h5 hodd (by omega)]
      by_cases hprime : nel.Prime
      · rw [decide_eq_true hprime]
        exact ⟨nel, rfl, hprime, le_rfl⟩
      · rw [decide_eq_false hprime]
        have hpodd : p % 2 = 1 := (hp.eq_two_or_odd).resolve_left (by omega)
        have hne : p ≠ nel := fun h ↦ hprime (h ▸ hp)
        obtain ⟨size, hloop, hsp, hge⟩ := ih (nel + 2) (by omega) (by omega) (by omega) (by omega)
        exact ⟨size, hloop, hsp, by omega⟩

/-- `hcreate_r` makes a table the search works for, with room for at least as many
entries as asked for. -/
theorem hcreateR_spec (nel : ℕ) (h4 : 4 ≤ nel) (hlt : nel < 2 ^ 29) :
    ∃ htab, hcreateR nel = some htab ∧ GoodSize htab.size ∧ nel ≤ htab.size := by
  have hdiv : (nel ||| 1) / 2 = nel / 2 := by
    rw [Nat.or_div_two]
    simp
  have hmod : (nel ||| 1) % 2 = 1 := by
    rw [Nat.or_mod_two_eq_one]
    exact Or.inr rfl
  obtain ⟨p, hp, hgt, hle⟩ := Nat.exists_prime_lt_and_le_two_mul (nel ||| 1) (by omega)
  obtain ⟨size, hloop, hsp, hge⟩ := hcreateLoop_spec hp (by omega) (nel + 1) (nel ||| 1)
    (by omega) hmod hgt.le (by omega)
  exact ⟨_, by rw [hcreateR, hloop]; rfl, ⟨hsp, show 5 ≤ size by omega⟩, show nel ≤ size by omega⟩

end MiniPi.Env
