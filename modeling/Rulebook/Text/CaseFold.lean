import Rulebook.Text.CharSet

/-!
# Characters that differ in case only

The classes of simple case folding of Unicode 17.0: two characters are in one class if they fold to
the same character. A character that stands in no class is alone in its own.
-/

namespace Rulebook

namespace CaseFold

/-- The classes of more than two characters. -/
def several : List (List Nat) :=
  [[0x4b, 0x6b, 0x212a], [0x53, 0x73, 0x17f], [0xb5, 0x39c, 0x3bc], [0xc5, 0xe5, 0x212b],
    [0x1c4, 0x1c5, 0x1c6], [0x1c7, 0x1c8, 0x1c9], [0x1ca, 0x1cb, 0x1cc], [0x1f1, 0x1f2, 0x1f3],
    [0x345, 0x399, 0x3b9, 0x1fbe], [0x392, 0x3b2, 0x3d0], [0x395, 0x3b5, 0x3f5],
    [0x398, 0x3b8, 0x3d1, 0x3f4], [0x39a, 0x3ba, 0x3f0], [0x3a0, 0x3c0, 0x3d6],
    [0x3a1, 0x3c1, 0x3f1], [0x3a3, 0x3c2, 0x3c3], [0x3a6, 0x3c6, 0x3d5], [0x3a9, 0x3c9, 0x2126],
    [0x412, 0x432, 0x1c80], [0x414, 0x434, 0x1c81], [0x41e, 0x43e, 0x1c82], [0x421, 0x441, 0x1c83],
    [0x422, 0x442, 0x1c84, 0x1c85], [0x42a, 0x44a, 0x1c86], [0x462, 0x463, 0x1c87],
    [0x1c88, 0xa64a, 0xa64b], [0x1e60, 0x1e61, 0x1e9b]]

/-- The classes of two characters, as runs: a run `(first, count, step, distance)` holds the
    characters `first`, `first + step`, and so on, `count` of them, each with the one that is
    `distance` further on. -/
def runs : List (Nat × Nat × Nat × Nat) :=
  [(0x41, 10, 1, 0x20), (0x4c, 7, 1, 0x20), (0x54, 7, 1, 0x20), (0xc0, 5, 1, 0x20),
    (0xc6, 17, 1, 0x20), (0xd8, 7, 1, 0x20), (0xdf, 1, 1, 0x1dbf), (0xff, 1, 1, 0x79),
    (0x100, 24, 2, 0x1), (0x132, 3, 2, 0x1), (0x139, 8, 2, 0x1), (0x14a, 23, 2, 0x1),
    (0x179, 3, 2, 0x1), (0x180, 1, 1, 0xc3), (0x181, 1, 1, 0xd2), (0x182, 2, 2, 0x1),
    (0x186, 1, 1, 0xce), (0x187, 1, 1, 0x1), (0x189, 2, 1, 0xcd), (0x18b, 1, 1, 0x1),
    (0x18e, 1, 1, 0x4f), (0x18f, 1, 1, 0xca), (0x190, 1, 1, 0xcb), (0x191, 1, 1, 0x1),
    (0x193, 1, 1, 0xcd), (0x194, 1, 1, 0xcf), (0x195, 1, 1, 0x61), (0x196, 1, 1, 0xd3),
    (0x197, 1, 1, 0xd1), (0x198, 1, 1, 0x1), (0x19a, 1, 1, 0xa3), (0x19b, 1, 1, 0xa641),
    (0x19c, 1, 1, 0xd3), (0x19d, 1, 1, 0xd5), (0x19e, 1, 1, 0x82), (0x19f, 1, 1, 0xd6),
    (0x1a0, 3, 2, 0x1), (0x1a6, 1, 1, 0xda), (0x1a7, 1, 1, 0x1), (0x1a9, 1, 1, 0xda),
    (0x1ac, 1, 1, 0x1), (0x1ae, 1, 1, 0xda), (0x1af, 1, 1, 0x1), (0x1b1, 2, 1, 0xd9),
    (0x1b3, 2, 2, 0x1), (0x1b7, 1, 1, 0xdb), (0x1b8, 1, 1, 0x1), (0x1bc, 1, 1, 0x1),
    (0x1bf, 1, 1, 0x38), (0x1cd, 8, 2, 0x1), (0x1de, 9, 2, 0x1), (0x1f4, 1, 1, 0x1),
    (0x1f8, 20, 2, 0x1), (0x222, 9, 2, 0x1), (0x23a, 1, 1, 0x2a2b), (0x23b, 1, 1, 0x1),
    (0x23e, 1, 1, 0x2a28), (0x23f, 2, 1, 0x2a3f), (0x241, 1, 1, 0x1), (0x244, 1, 1, 0x45),
    (0x245, 1, 1, 0x47), (0x246, 5, 2, 0x1), (0x250, 1, 1, 0x2a1f), (0x251, 1, 1, 0x2a1c),
    (0x252, 1, 1, 0x2a1e), (0x25c, 1, 1, 0xa54f), (0x261, 1, 1, 0xa54b), (0x264, 1, 1, 0xa567),
    (0x265, 1, 1, 0xa528), (0x266, 1, 1, 0xa544), (0x26a, 1, 1, 0xa544), (0x26b, 1, 1, 0x29f7),
    (0x26c, 1, 1, 0xa541), (0x271, 1, 1, 0x29fd), (0x27d, 1, 1, 0x29e7), (0x282, 1, 1, 0xa543),
    (0x287, 1, 1, 0xa52a), (0x29d, 1, 1, 0xa515), (0x29e, 1, 1, 0xa512), (0x370, 2, 2, 0x1),
    (0x376, 1, 1, 0x1), (0x37b, 3, 1, 0x82), (0x37f, 1, 1, 0x74), (0x386, 1, 1, 0x26),
    (0x388, 3, 1, 0x25), (0x38c, 1, 1, 0x40), (0x38e, 2, 1, 0x3f), (0x390, 1, 1, 0x1c43),
    (0x391, 2, 2, 0x20), (0x394, 2, 2, 0x20), (0x397, 1, 1, 0x20), (0x39b, 2, 2, 0x20),
    (0x39e, 2, 1, 0x20), (0x3a4, 2, 1, 0x20), (0x3a7, 2, 1, 0x20), (0x3aa, 2, 1, 0x20),
    (0x3b0, 1, 1, 0x1c33), (0x3cf, 1, 1, 0x8), (0x3d8, 12, 2, 0x1), (0x3f2, 1, 1, 0x7),
    (0x3f7, 1, 1, 0x1), (0x3fa, 1, 1, 0x1), (0x400, 16, 1, 0x50), (0x410, 2, 1, 0x20),
    (0x413, 2, 2, 0x20), (0x416, 8, 1, 0x20), (0x41f, 2, 1, 0x20), (0x423, 7, 1, 0x20),
    (0x42b, 5, 1, 0x20), (0x460, 1, 1, 0x1), (0x464, 15, 2, 0x1), (0x48a, 27, 2, 0x1),
    (0x4c0, 1, 1, 0xf), (0x4c1, 7, 2, 0x1), (0x4d0, 48, 2, 0x1), (0x531, 38, 1, 0x30),
    (0x10a0, 38, 1, 0x1c60), (0x10c7, 1, 1, 0x1c60), (0x10cd, 1, 1, 0x1c60), (0x10d0, 43, 1, 0xbc0),
    (0x10fd, 3, 1, 0xbc0), (0x13a0, 80, 1, 0x97d0), (0x13f0, 6, 1, 0x8), (0x1c89, 1, 1, 0x1),
    (0x1d79, 1, 1, 0x8a04), (0x1d7d, 1, 1, 0xee6), (0x1d8e, 1, 1, 0x8a38), (0x1e00, 48, 2, 0x1),
    (0x1e62, 26, 2, 0x1), (0x1ea0, 48, 2, 0x1), (0x1f00, 8, 1, 0x8), (0x1f10, 6, 1, 0x8),
    (0x1f20, 8, 1, 0x8), (0x1f30, 8, 1, 0x8), (0x1f40, 6, 1, 0x8), (0x1f51, 4, 2, 0x8),
    (0x1f60, 8, 1, 0x8), (0x1f70, 2, 1, 0x4a), (0x1f72, 4, 1, 0x56), (0x1f76, 2, 1, 0x64),
    (0x1f78, 2, 1, 0x80), (0x1f7a, 2, 1, 0x70), (0x1f7c, 2, 1, 0x7e), (0x1f80, 8, 1, 0x8),
    (0x1f90, 8, 1, 0x8), (0x1fa0, 8, 1, 0x8), (0x1fb0, 2, 1, 0x8), (0x1fb3, 1, 1, 0x9),
    (0x1fc3, 1, 1, 0x9), (0x1fd0, 2, 1, 0x8), (0x1fe0, 2, 1, 0x8), (0x1fe5, 1, 1, 0x7),
    (0x1ff3, 1, 1, 0x9), (0x2132, 1, 1, 0x1c), (0x2160, 16, 1, 0x10), (0x2183, 1, 1, 0x1),
    (0x24b6, 26, 1, 0x1a), (0x2c00, 48, 1, 0x30), (0x2c60, 1, 1, 0x1), (0x2c67, 3, 2, 0x1),
    (0x2c72, 1, 1, 0x1), (0x2c75, 1, 1, 0x1), (0x2c80, 50, 2, 0x1), (0x2ceb, 2, 2, 0x1),
    (0x2cf2, 1, 1, 0x1), (0xa640, 5, 2, 0x1), (0xa64c, 17, 2, 0x1), (0xa680, 14, 2, 0x1),
    (0xa722, 7, 2, 0x1), (0xa732, 31, 2, 0x1), (0xa779, 2, 2, 0x1), (0xa77e, 5, 2, 0x1),
    (0xa78b, 1, 1, 0x1), (0xa790, 2, 2, 0x1), (0xa794, 1, 1, 0x30), (0xa796, 10, 2, 0x1),
    (0xa7b3, 1, 1, 0x3a0), (0xa7b4, 8, 2, 0x1), (0xa7c7, 2, 2, 0x1), (0xa7cc, 8, 2, 0x1),
    (0xa7f5, 1, 1, 0x1), (0xfb05, 1, 1, 0x1), (0xff21, 26, 1, 0x20), (0x10400, 40, 1, 0x28),
    (0x104b0, 36, 1, 0x28), (0x10570, 11, 1, 0x27), (0x1057c, 15, 1, 0x27), (0x1058c, 7, 1, 0x27),
    (0x10594, 2, 1, 0x27), (0x10c80, 51, 1, 0x40), (0x10d50, 22, 1, 0x20), (0x118a0, 32, 1, 0x20),
    (0x16e40, 32, 1, 0x20), (0x16ea0, 25, 1, 0x1b), (0x1e900, 34, 1, 0x22)]

/-- The classes of a run. -/
def pairs : Nat × Nat × Nat × Nat → List (List Nat)
  | (first, count, step, distance) =>
      (List.range count).map fun n => [first + n * step, first + n * step + distance]

/-- The classes of more than one character. -/
def classes : List (List Nat) := several ++ runs.flatMap pairs

/-- Every code point that equals the given one up to case. -/
def orbit (code : Nat) : List Nat :=
  if code < 0x41 then [code] else (classes.find? (·.contains code)).getD [code]

/-- The characters that a code point stands for, with or without regard to case. -/
def alike (fold : Bool) (code : Nat) : CharSet :=
  if fold then .ofRanges ((orbit code).map fun c => (c, c)) else .single code

/-- A set with every character that equals one of its members up to case. -/
def close (s : CharSet) : CharSet :=
  .ofRanges (s.ranges ++ (classes.filter (·.any s.contains)).flatMap (·.map fun c => (c, c)))

end CaseFold

end Rulebook
