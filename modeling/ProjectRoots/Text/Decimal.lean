/- Natural numbers in decimal. `digits` writes a number without leading zeros and `ofDigits` reads
   a number from its digits; reading what was written gives the number back. -/
namespace ProjectRoots

/-- The character of a digit below ten. -/
def digitChar (digit : Nat) : Char :=
  Char.ofNat (48 + digit)

/-- The digit that a character stands for. -/
def digitValue (c : Char) : Nat :=
  c.toNat - 48

/-- The decimal digits of a number, the most significant first. -/
def digits (n : Nat) : List Char :=
  if n < 10 then [digitChar n] else digits (n / 10) ++ [digitChar (n % 10)]

/-- The number that a sequence of digits denotes. -/
def ofDigits (cs : List Char) : Nat :=
  cs.foldl (fun n c => 10 * n + digitValue c) 0

/-- A number as a text. -/
def decimal (n : Nat) : String :=
  String.ofList (digits n)

theorem digitValue_digitChar : ∀ d, d < 10 → digitValue (digitChar d) = d := by
  decide

theorem isDigit_digitChar : ∀ d, d < 10 → (digitChar d).isDigit = true := by
  decide

theorem ofDigits_append_singleton (cs : List Char) (c : Char) :
    ofDigits (cs ++ [c]) = 10 * ofDigits cs + digitValue c := by
  simp [ofDigits]

theorem ofDigits_digits (n : Nat) : ofDigits (digits n) = n := by
  rw [digits]
  split
  · rename_i h
    simp [ofDigits, digitValue_digitChar n h]
  · have ih := ofDigits_digits (n / 10)
    rw [ofDigits_append_singleton, ih, digitValue_digitChar _ (Nat.mod_lt _ (by decide))]
    omega
termination_by n
decreasing_by omega

theorem isDigit_of_mem_digits (n : Nat) : ∀ c ∈ digits n, c.isDigit = true := by
  rw [digits]
  split
  · rename_i h
    intro c hc
    exact List.mem_singleton.1 hc ▸ isDigit_digitChar n h
  · intro c hc
    rcases List.mem_append.1 hc with hc | hc
    · exact isDigit_of_mem_digits (n / 10) c hc
    · exact List.mem_singleton.1 hc ▸ isDigit_digitChar _ (Nat.mod_lt _ (by decide))
termination_by n
decreasing_by omega

theorem digits_ne_nil (n : Nat) : digits n ≠ [] := by
  rw [digits]
  split
  · exact List.cons_ne_nil _ _
  · exact List.append_ne_nil_of_right_ne_nil _ (List.cons_ne_nil _ _)

/-- Only zero begins with a zero. -/
theorem head?_digits {n : Nat} (hpos : 0 < n) : (digits n).head? ≠ some '0' := by
  rw [digits]
  split
  · rename_i hlt
    have hchar : ∀ d, d < 10 → 0 < d → digitChar d ≠ '0' := by decide
    exact fun h => hchar n hlt hpos (Option.some.inj h)
  · have ih := head?_digits (n := n / 10) (by omega)
    cases hfront : digits (n / 10) with
    | nil => exact absurd hfront (digits_ne_nil _)
    | cons d ds => rwa [hfront] at ih
termination_by n
decreasing_by omega

end ProjectRoots
