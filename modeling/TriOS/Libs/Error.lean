import Mathlib

/-!
# error.h — the error codes
-/

namespace TriOS

/-- `E_INVAL` -/
def eInval : Int := 3

/-- `E_NO_MEM` -/
def eNoMem : Int := 4

/-- `E_NO_DEV` -/
def eNoDev : Int := 13

/-- `E_NA_DEV` -/
def eNaDev : Int := 14

/-- `E_BUSY` -/
def eBusy : Int := 15

/-- `E_NOENT` -/
def eNoent : Int := 16

/-- `E_ISDIR` -/
def eIsdir : Int := 17

/-- `E_NOTDIR` -/
def eNotdir : Int := 18

/-- `E_MAX_OPEN` -/
def eMaxOpen : Int := 22

/-- `E_EXISTS` -/
def eExists : Int := 23

end TriOS
