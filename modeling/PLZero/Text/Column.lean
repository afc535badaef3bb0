/-!
# Columns

Text set into a column of a given width; text that is wider is left as it is.
-/

namespace PLZero.Text

/-- Text at the left of its column. -/
def flushLeft (width : Nat) (text : String) : String :=
  text ++ "".pushn ' ' (width - text.length)

/-- Text at the right of its column. -/
def flushRight (width : Nat) (text : String) : String :=
  "".pushn ' ' (width - text.length) ++ text

end PLZero.Text
