import MDRack.Lib.Binary64
import MDRack.Lib.CodePoints

/-!
# Values of `json.loads`

The values that reading JSON can give, with texts of code points and all doubles.
-/

namespace Loads

inductive Value
  | null
  | bool (b : Bool)
  | int (i : Int)
  | float (x : Binary64.Double)
  | str (text : CodePoints.Text)
  | arr (items : List Value)
  | obj (fields : List (CodePoints.Text × Value))

end Loads
