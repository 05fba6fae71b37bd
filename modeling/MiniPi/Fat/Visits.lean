import Mathlib
import MiniPi.Fat.Create

/-!
# What the directory iterator visits

`fat_itr_next` reads a group of slots and the record after them as one entry, with the long
name that the slots hold.
-/

namespace MiniPi.Fat

namespace Item

end Item

section Iterate

variable {table : List Dent}

end Iterate

end MiniPi.Fat
