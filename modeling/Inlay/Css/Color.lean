import Inlay.Text

/-!
Colours of style sheets: the ones that have a name or a hexadecimal form, and
the shortest way to write one.
-/

namespace Inlay.Css

structure Color where
  red : Nat
  green : Nat
  blue : Nat
  deriving DecidableEq, Repr

namespace Color

def ofCode (n : Nat) : Color := ⟨n / 0x10000 % 0x100, n / 0x100 % 0x100, n % 0x100⟩

def code (c : Color) : Nat := c.red * 0x10000 + c.green * 0x100 + c.blue

/-- The sixteen basic names, and the further ones that are shorter than the
hexadecimal form of their colour. -/
def names : List (Text × Nat) :=
  [("aqua", 0x00ffff), ("black", 0x000000), ("blue", 0x0000ff), ("fuchsia", 0xff00ff),
    ("gray", 0x808080), ("green", 0x008000), ("lime", 0x00ff00), ("maroon", 0x800000),
    ("navy", 0x000080), ("olive", 0x808000), ("purple", 0x800080), ("red", 0xff0000),
    ("silver", 0xc0c0c0), ("teal", 0x008080), ("white", 0xffffff), ("yellow", 0xffff00),
    ("azure", 0xf0ffff), ("beige", 0xf5f5dc), ("bisque", 0xffe4c4), ("brown", 0xa52a2a),
    ("coral", 0xff7f50), ("gold", 0xffd700), ("indigo", 0x4b0082),
    ("ivory", 0xfffff0), ("khaki", 0xf0e68c), ("linen", 0xfaf0e6),
    ("orange", 0xffa500), ("orchid", 0xda70d6), ("peru", 0xcd853f), ("pink", 0xffc0cb),
    ("plum", 0xdda0dd), ("salmon", 0xfa8072), ("sienna", 0xa0522d), ("snow", 0xfffafa),
    ("tan", 0xd2b48c), ("tomato", 0xff6347), ("violet", 0xee82ee),
    ("wheat", 0xf5deb3)].map fun (name, n) => (name.toList, n)

def ofName? (name : Text) : Option Color :=
  (names.lookup (name.map Char.toLower)).map ofCode

def ofHex? (t : Text) : Option Color := do
  match ← t.mapM Text.hexDigit? with
  | [r, g, b] => some ⟨r * 17, g * 17, b * 17⟩
  | [r, r', g, g', b, b'] => some ⟨r * 16 + r', g * 16 + g', b * 16 + b'⟩
  | _ => none

def hex (n : Nat) : Text := [Nat.digitChar (n / 16), Nat.digitChar (n % 16)]

/-- The hexadecimal form, of three digits where they are enough. -/
def toHex (c : Color) : Text :=
  if c.red % 17 = 0 ∧ c.green % 17 = 0 ∧ c.blue % 17 = 0 then
    ['#', Nat.digitChar (c.red / 17), Nat.digitChar (c.green / 17), Nat.digitChar (c.blue / 17)]
  else '#' :: hex c.red ++ hex c.green ++ hex c.blue

def write (c : Color) : Text :=
  match names.find? fun (name, n) => n = c.code ∧ name.length < c.toHex.length with
  | some (name, _) => name
  | none => c.toHex

end Color

end Inlay.Css
