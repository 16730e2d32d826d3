import Mathlib.Algebra.Order.Ring.Nat

/-!
# Conditions

`common/src/defs.rs` and `common/src/cond_stmt_base.rs`: the record of one
comparison as the tracker logs it and as the fast runtime fills it in.
-/

set_option autoImplicit false

namespace Parmesan.CondModel

def UNREACHABLE : ℕ := 2^64-1

def COND_ICMP_EQ_OP : ℕ := 32
def COND_ICMP_NE_OP : ℕ := 33
def COND_ICMP_UGT_OP : ℕ := 34
def COND_ICMP_UGE_OP : ℕ := 35
def COND_ICMP_ULT_OP : ℕ := 36
def COND_ICMP_ULE_OP : ℕ := 37
def COND_ICMP_SGT_OP : ℕ := 38
def COND_ICMP_SGE_OP : ℕ := 39
def COND_ICMP_SLT_OP : ℕ := 40
def COND_ICMP_SLE_OP : ℕ := 41
def COND_SW_OP : ℕ := 0x00FF

def COND_BASIC_MASK : ℕ := 0xFF
def COND_SIGN_MASK : ℕ := 0x100
def COND_BOOL_MASK : ℕ := 0x200

def COND_MAX_EXPLORE_OP : ℕ := 0x4000-1
def COND_MAX_EXPLOIT_OP : ℕ := 0x5000-1
def COND_AFL_OP : ℕ := 0x8001
def COND_FN_OP : ℕ := 0x8002
def COND_LEN_OP : ℕ := 0x8003

def COND_FALSE_ST : ℕ := 0
def COND_TRUE_ST : ℕ := 1
def COND_DONE_ST : ℕ := 2

structure CondStmtBase where
  cmpid : ℕ
  context : ℕ
  lastCallsite : ℕ
  order : ℕ
  belong : ℕ
  condition : ℕ
  level : ℕ
  op : ℕ
  size : ℕ
  lb1 : ℕ
  lb2 : ℕ
  arg1 : ℕ
  arg2 : ℕ
  deriving DecidableEq, Repr

def isExplore (c : CondStmtBase) : Bool := c.op ≤ COND_MAX_EXPLORE_OP

def isSigned (c : CondStmtBase) : Bool :=
  0 < c.op &&& COND_SIGN_MASK ||
    (COND_ICMP_SGT_OP ≤ c.op &&& COND_BASIC_MASK && c.op &&& COND_BASIC_MASK ≤ COND_ICMP_SLE_OP)

end Parmesan.CondModel
