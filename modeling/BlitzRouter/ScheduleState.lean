import BlitzRouter.Kvcache

namespace BlitzRouter

-- The load counters of one replica. Latency averages and the throughput window
-- are floating point and feed nothing that is modelled here. The counts have no
-- bound; in the source they are words, and `addAssign_words` and `subAssign_words`
-- say that this makes no difference up to 2^63, more than any run can count.
structure LMetric where
  bs : Nat
  waitingReqs : Nat
  prefillTokens : Int
  allTokens : Nat
deriving DecidableEq, Repr

def LMetric.empty : LMetric := ⟨0,0,0,0⟩

structure LMetricDec where
  bsDec : Nat
  waitingReqsDec : Nat
  prefillTokensDec : Int
  allTokensInc : Int
deriving DecidableEq, Repr

def LMetricDec.new : LMetricDec := ⟨0,0,0,0⟩

structure LMetricInc where
  bsInc : Nat
  waitingReqsInc : Nat
  prefillTokensInc : Nat
  allTokensInc : Nat
deriving DecidableEq, Repr

-- `as usize` on a machine word: a negative sum wraps around.
def asUsize (sum : Int) : Nat := (if 0 ≤ sum then sum else sum+2^64).toNat

-- Release semantics. `prefill_tokens` is signed and the counts saturate at zero,
-- while the token sum is cast. Debug builds panic where `Underflows` holds.
def LMetric.subAssign (m : LMetric) (rhs : LMetricDec) : LMetric where
  bs := m.bs-rhs.bsDec
  waitingReqs := m.waitingReqs-rhs.waitingReqsDec
  prefillTokens := m.prefillTokens-rhs.prefillTokensDec
  allTokens := asUsize (m.allTokens+rhs.allTokensInc)

def LMetric.Underflows (m : LMetric) (rhs : LMetricDec) : Prop :=
  m.bs < rhs.bsDec ∨ m.waitingReqs < rhs.waitingReqsDec

def LMetric.addAssign (m : LMetric) (rhs : LMetricInc) : LMetric where
  bs := m.bs+rhs.bsInc
  waitingReqs := m.waitingReqs+rhs.waitingReqsInc
  prefillTokens := m.prefillTokens+rhs.prefillTokensInc
  allTokens := m.allTokens+rhs.allTokensInc

def saturatingAddSigned (n : Nat) (inc : Int) : Nat := (n+inc).toNat

section Words
variable {m : LMetric} {i : LMetricInc} {d : LMetricDec}

-- Both operators on words: `% 2^64` is a `usize`, `bmod (2^64)` an `isize`.
def LMetric.addAssignWords (m : LMetric) (rhs : LMetricInc) : LMetric where
  bs := (m.bs+rhs.bsInc)%2^64
  waitingReqs := (m.waitingReqs+rhs.waitingReqsInc)%2^64
  prefillTokens := (m.prefillTokens+(rhs.prefillTokensInc : Int).bmod (2^64)).bmod (2^64)
  allTokens := (m.allTokens+rhs.allTokensInc)%2^64

def LMetric.subAssignWords (m : LMetric) (rhs : LMetricDec) : LMetric where
  bs := m.bs-rhs.bsDec
  waitingReqs := m.waitingReqs-rhs.waitingReqsDec
  prefillTokens := max (-2^63) (min (m.prefillTokens-rhs.prefillTokensDec) (2^63-1))
  allTokens := (((m.allTokens : Int).bmod (2^64)+rhs.allTokensInc).bmod (2^64)%2^64).toNat

def Isize (n : Int) : Prop := -2^63 ≤ n ∧ n < 2^63

theorem Isize.bmod {n : Int} (word : Isize n) : n.bmod (2^64) = n := by
  obtain ⟨low,high⟩ := word
  exact Int.bmod_eq_of_le_mul_two (by omega) (by omega)

theorem LMetric.addAssign_words (bs : (m.addAssign i).bs < 2^64) (waiting : (m.addAssign i).waitingReqs < 2^64)
    (prefill : Isize (m.addAssign i).prefillTokens) (tokens : (m.addAssign i).allTokens < 2^64) : m.addAssignWords i = m.addAssign i := by
  simp only [LMetric.addAssign] at bs waiting prefill tokens
  have sum : (m.prefillTokens+(i.prefillTokensInc : Int).bmod (2^64)).bmod (2^64) = m.prefillTokens+i.prefillTokensInc := by
    rw [Int.add_bmod_bmod]
    exact prefill.bmod
  rw [LMetric.addAssignWords,sum,Nat.mod_eq_of_lt bs,Nat.mod_eq_of_lt waiting,Nat.mod_eq_of_lt tokens]
  rfl

-- Also for a sum of tokens below zero, which both cast in the same way.
theorem LMetric.subAssign_words (before : m.allTokens < 2^63) (prefill : Isize (m.prefillTokens-d.prefillTokensDec))
    (tokens : Isize (m.allTokens+d.allTokensInc)) : m.subAssignWords d = m.subAssign d := by
  have read : (m.allTokens : Int).bmod (2^64) = m.allTokens := Isize.bmod ⟨by omega,by omega⟩
  have cast : ((m.allTokens+d.allTokensInc : Int)%2^64).toNat = asUsize (m.allTokens+d.allTokensInc) := by
    obtain ⟨low,high⟩ := tokens
    unfold asUsize
    split <;> omega
  obtain ⟨low,high⟩ := prefill
  rw [LMetric.subAssignWords,read,tokens.bmod,cast,min_eq_left (by omega),max_eq_right low]
  rfl

end Words

structure ScheduleContext (β : Type) where
  lmetric : LMetric
  blockHash : β

theorem asUsize_cast {sum : Int} (positive : 0 ≤ sum) : (asUsize sum : Int) = sum := by
  unfold asUsize
  rw [if_pos positive]
  exact Int.toNat_of_nonneg positive

theorem saturatingAddSigned_cast {n : Nat} {inc : Int} (positive : 0 ≤ n+inc) : (saturatingAddSigned n inc : Int) = n+inc :=
  Int.toNat_of_nonneg positive

end BlitzRouter
