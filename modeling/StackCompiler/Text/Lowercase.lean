/-
**Lower case.**

Every character has at most one lower-case form, a single character.  The table lists the
characters that differ from their lower-case form, as runs of code points with a common distance.
-/

import StackCompiler.Text.Piece

namespace StackCompiler.Text

/-- Runs `(gap, span, stride, distance)` of characters with a lower-case form of their own.  A run
starts `gap` code points behind the start of the one before. -/
def lowerRuns : List (Nat × Nat × Nat × Int) :=
  [(65, 25, 1, 32), (127, 22, 1, 32), (24, 6, 1, 32), (40, 46, 2, 1), (48, 0, 1, -199),
    (2, 4, 2, 1), (7, 14, 2, 1), (17, 44, 2, 1), (46, 0, 1, -121), (1, 4, 2, 1), (8, 0, 1, 210),
    (1, 2, 2, 1), (4, 0, 1, 206), (1, 0, 1, 1), (2, 1, 1, 205), (2, 0, 1, 1), (3, 0, 1, 79),
    (1, 0, 1, 202), (1, 0, 1, 203), (1, 0, 1, 1), (2, 0, 1, 205), (1, 0, 1, 207), (2, 0, 1, 211),
    (1, 0, 1, 209), (1, 0, 1, 1), (4, 0, 1, 211), (1, 0, 1, 213), (2, 0, 1, 214), (1, 4, 2, 1),
    (6, 0, 1, 218), (1, 0, 1, 1), (2, 0, 1, 218), (3, 0, 1, 1), (2, 0, 1, 218), (1, 0, 1, 1),
    (2, 1, 1, 217), (2, 2, 2, 1), (4, 0, 1, 219), (1, 0, 1, 1), (4, 0, 1, 1), (8, 0, 1, 2),
    (1, 0, 1, 1), (2, 0, 1, 2), (1, 0, 1, 1), (2, 0, 1, 2), (1, 16, 2, 1), (19, 16, 2, 1),
    (19, 0, 1, 2), (1, 2, 2, 1), (4, 0, 1, -97), (1, 0, 1, -56), (1, 38, 2, 1), (40, 0, 1, -130),
    (2, 16, 2, 1), (24, 0, 1, 10795), (1, 0, 1, 1), (2, 0, 1, -163), (1, 0, 1, 10792), (3, 0, 1, 1),
    (2, 0, 1, -195), (1, 0, 1, 69), (1, 0, 1, 71), (1, 8, 2, 1), (298, 2, 2, 1), (6, 0, 1, 1),
    (9, 0, 1, 116), (7, 0, 1, 38), (2, 2, 1, 37), (4, 0, 1, 64), (2, 1, 1, 63), (3, 16, 1, 32),
    (18, 8, 1, 32), (44, 0, 1, 8), (9, 22, 2, 1), (28, 0, 1, -60), (3, 0, 1, 1), (2, 0, 1, -7),
    (1, 0, 1, 1), (3, 2, 1, -130), (3, 15, 1, 80), (16, 31, 1, 32), (80, 32, 2, 1), (42, 52, 2, 1),
    (54, 0, 1, 15), (1, 12, 2, 1), (15, 94, 2, 1), (97, 37, 1, 48), (2927, 37, 1, 7264),
    (39, 0, 1, 7264), (6, 0, 1, 7264), (723, 79, 1, 38864), (80, 5, 1, 8), (2201, 0, 1, 1),
    (7, 42, 1, -3008), (45, 2, 1, -3008), (323, 148, 2, 1), (158, 0, 1, -7615), (2, 94, 2, 1),
    (104, 7, 1, -8), (16, 5, 1, -8), (16, 7, 1, -8), (16, 7, 1, -8), (16, 5, 1, -8), (17, 6, 2, -8),
    (15, 7, 1, -8), (32, 7, 1, -8), (16, 7, 1, -8), (16, 7, 1, -8), (16, 1, 1, -8), (2, 1, 1, -74),
    (2, 0, 1, -9), (12, 3, 1, -86), (4, 0, 1, -9), (12, 1, 1, -8), (2, 1, 1, -100), (14, 1, 1, -8),
    (2, 1, 1, -112), (2, 0, 1, -7), (12, 1, 1, -128), (2, 1, 1, -126), (2, 0, 1, -9),
    (298, 0, 1, -7517), (4, 0, 1, -8383), (1, 0, 1, -8262), (7, 0, 1, 28), (46, 15, 1, 16),
    (35, 0, 1, 1), (819, 25, 1, 26), (1866, 47, 1, 48), (96, 0, 1, 1), (2, 0, 1, -10743),
    (1, 0, 1, -3814), (1, 0, 1, -10727), (3, 4, 2, 1), (6, 0, 1, -10780), (1, 0, 1, -10749),
    (1, 0, 1, -10783), (1, 0, 1, -10782), (2, 0, 1, 1), (3, 0, 1, 1), (9, 1, 1, -10815),
    (2, 98, 2, 1), (107, 2, 2, 1), (7, 0, 1, 1), (31054, 44, 2, 1), (64, 26, 2, 1), (162, 12, 2, 1),
    (16, 60, 2, 1), (71, 2, 2, 1), (4, 0, 1, -35332), (1, 8, 2, 1), (13, 0, 1, 1),
    (2, 0, 1, -42280), (3, 2, 2, 1), (6, 18, 2, 1), (20, 0, 1, -42308), (1, 0, 1, -42319),
    (1, 0, 1, -42315), (1, 0, 1, -42305), (1, 0, 1, -42308), (2, 0, 1, -42258), (1, 0, 1, -42282),
    (1, 0, 1, -42261), (1, 0, 1, 928), (1, 14, 2, 1), (16, 0, 1, -48), (1, 0, 1, -42307),
    (1, 0, 1, -35384), (1, 2, 2, 1), (4, 0, 1, -42343), (1, 14, 2, 1), (16, 0, 1, -42561),
    (25, 0, 1, 1), (22316, 25, 1, 32), (1247, 39, 1, 40), (176, 35, 1, 40), (192, 10, 1, 39),
    (12, 14, 1, 39), (16, 6, 1, 39), (8, 1, 1, 39), (1772, 50, 1, 64), (208, 21, 1, 32),
    (2896, 31, 1, 32), (21920, 31, 1, 32), (96, 24, 1, 27), (31328, 33, 1, 34)]

/-- The distance of the lower-case form of the character `n` behind the start of a run. -/
def lowerDistance : List (Nat × Nat × Nat × Int) → Nat → Int
  | [], _ => 0
  | (gap, span, stride, distance) :: rest, n =>
    if n < gap then 0
    else if n - gap ≤ span && (n - gap) % stride == 0 then distance
    else lowerDistance rest (n - gap)

/-- The lower-case form of a piece. -/
def lowerPiece (p : Piece) : Char := Char.ofNat (p.code + lowerDistance lowerRuns p.code).toNat

/-- **A text in lower case.** -/
def toLower (t : Text) : Text := (pieces t).flatMap fun p => String.utf8EncodeChar (lowerPiece p)

end StackCompiler.Text
