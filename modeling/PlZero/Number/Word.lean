set_option autoImplicit false

namespace PlZero.Number

def wordCount : Nat := 4294967296

def minWord : Int := -2147483648

def maxWord : Int := 2147483647

def wrapWord (n : Int) : Int := Int.bmod n wordCount

theorem minWord_le_wrapWord (n : Int) : minWord ≤ wrapWord n := by
  have low := Int.le_bmod (x := n) (m := wordCount) (by decide)
  simp only [wordCount] at low
  simp only [minWord, wrapWord, wordCount]
  omega

theorem wrapWord_le_maxWord (n : Int) : wrapWord n ≤ maxWord := by
  have high := Int.bmod_lt (x := n) (m := wordCount) (by decide)
  simp only [wordCount] at high
  simp only [maxWord, wrapWord, wordCount]
  omega

theorem wrapWord_of_bounds {n : Int} (low : minWord ≤ n) (high : n ≤ maxWord) :
    wrapWord n = n := by
  simp only [minWord, maxWord] at low high
  apply Int.bmod_eq_of_le <;> simp only [wordCount] <;> omega

end PlZero.Number
