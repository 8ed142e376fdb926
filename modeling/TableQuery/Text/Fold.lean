import TableQuery.Text.Unit

/-! # Letter case of a single text unit

Two units are matched without regard to case when they fold to the same unit. A
unit folds to its capital where that capital is one unit and does not turn a
unit outside the ASCII range into an ASCII letter; surrogates fold to themselves. The
capitals are those of Unicode 17.
-/
namespace TableQuery.Text

/-- A run `(first, last, stride, distance)` of units whose capitals lie at one distance. -/
abbrev CaseRun := Nat × Nat × Nat × Nat

def CaseRun.covers (run : CaseRun) (u : Nat) : Bool :=
  run.1 ≤ u && u ≤ run.2.1 && (u - run.1) % run.2.2.1 == 0

def capitalsBelow : List CaseRun :=
  [(97, 122, 1, 32), (224, 246, 1, 32), (248, 254, 1, 32), (257, 303, 2, 1), (307, 311, 2, 1),
   (314, 328, 2, 1), (331, 375, 2, 1), (378, 382, 2, 1), (387, 389, 2, 1), (392, 392, 1, 1),
   (396, 396, 1, 1), (402, 402, 1, 1), (409, 409, 1, 1), (417, 421, 2, 1), (424, 424, 1, 1),
   (429, 429, 1, 1), (432, 432, 1, 1), (436, 438, 2, 1), (441, 441, 1, 1), (445, 445, 1, 1),
   (453, 453, 1, 1), (454, 454, 1, 2), (456, 456, 1, 1), (457, 457, 1, 2), (459, 459, 1, 1),
   (460, 460, 1, 2), (462, 476, 2, 1), (477, 477, 1, 79), (479, 495, 2, 1), (498, 498, 1, 1),
   (499, 499, 1, 2), (501, 501, 1, 1), (505, 543, 2, 1), (547, 563, 2, 1), (572, 572, 1, 1),
   (578, 578, 1, 1), (583, 591, 2, 1), (595, 595, 1, 210), (596, 596, 1, 206), (598, 599, 1, 205),
   (601, 601, 1, 202), (603, 603, 1, 203), (608, 608, 1, 205), (611, 611, 1, 207),
   (616, 616, 1, 209), (617, 617, 1, 211), (623, 623, 1, 211), (626, 626, 1, 213),
   (629, 629, 1, 214), (640, 640, 1, 218), (643, 643, 1, 218), (648, 648, 1, 218),
   (649, 649, 1, 69), (650, 651, 1, 217), (652, 652, 1, 71), (658, 658, 1, 219), (881, 883, 2, 1),
   (887, 887, 1, 1), (940, 940, 1, 38), (941, 943, 1, 37), (945, 961, 1, 32), (962, 962, 1, 31),
   (963, 971, 1, 32), (972, 972, 1, 64), (973, 974, 1, 63), (976, 976, 1, 62), (977, 977, 1, 57),
   (981, 981, 1, 47), (982, 982, 1, 54), (983, 983, 1, 8), (985, 1007, 2, 1), (1008, 1008, 1, 86),
   (1009, 1009, 1, 80), (1011, 1011, 1, 116), (1013, 1013, 1, 96), (1016, 1016, 1, 1),
   (1019, 1019, 1, 1), (1072, 1103, 1, 32), (1104, 1119, 1, 80), (1121, 1153, 2, 1),
   (1163, 1215, 2, 1), (1218, 1230, 2, 1), (1231, 1231, 1, 15), (1233, 1327, 2, 1),
   (1377, 1414, 1, 48), (5112, 5117, 1, 8), (7296, 7296, 1, 6254), (7297, 7297, 1, 6253),
   (7298, 7298, 1, 6244), (7299, 7300, 1, 6242), (7301, 7301, 1, 6243), (7302, 7302, 1, 6236),
   (7303, 7303, 1, 6181), (7306, 7306, 1, 1), (7681, 7829, 2, 1), (7835, 7835, 1, 59),
   (7841, 7935, 2, 1), (8126, 8126, 1, 7205), (8526, 8526, 1, 28), (8560, 8575, 1, 16),
   (8580, 8580, 1, 1), (9424, 9449, 1, 26), (11312, 11359, 1, 48), (11361, 11361, 1, 1),
   (11365, 11365, 1, 10795), (11366, 11366, 1, 10792), (11368, 11372, 2, 1), (11379, 11379, 1, 1),
   (11382, 11382, 1, 1), (11393, 11491, 2, 1), (11500, 11502, 2, 1), (11507, 11507, 1, 1),
   (11520, 11557, 1, 7264), (11559, 11559, 1, 7264), (11565, 11565, 1, 7264), (42561, 42605, 2, 1),
   (42625, 42651, 2, 1), (42787, 42799, 2, 1), (42803, 42863, 2, 1), (42874, 42876, 2, 1),
   (42879, 42887, 2, 1), (42892, 42892, 1, 1), (42897, 42899, 2, 1), (42903, 42921, 2, 1),
   (42933, 42947, 2, 1), (42952, 42954, 2, 1), (42957, 42971, 2, 1), (42998, 42998, 1, 1),
   (43859, 43859, 1, 928), (43888, 43967, 1, 38864), (65345, 65370, 1, 32)]

def capitalsAbove : List CaseRun :=
  [(181, 181, 1, 743), (255, 255, 1, 121), (384, 384, 1, 195), (405, 405, 1, 97),
   (410, 410, 1, 163), (411, 411, 1, 42561), (414, 414, 1, 130), (447, 447, 1, 56),
   (575, 576, 1, 10815), (592, 592, 1, 10783), (593, 593, 1, 10780), (594, 594, 1, 10782),
   (604, 604, 1, 42319), (609, 609, 1, 42315), (612, 612, 1, 42343), (613, 613, 1, 42280),
   (614, 614, 1, 42308), (618, 618, 1, 42308), (619, 619, 1, 10743), (620, 620, 1, 42305),
   (625, 625, 1, 10749), (637, 637, 1, 10727), (642, 642, 1, 42307), (647, 647, 1, 42282),
   (669, 669, 1, 42261), (670, 670, 1, 42258), (837, 837, 1, 84), (891, 893, 1, 130),
   (1010, 1010, 1, 7), (4304, 4346, 1, 3008), (4349, 4351, 1, 3008), (7304, 7304, 1, 35266),
   (7545, 7545, 1, 35332), (7549, 7549, 1, 3814), (7566, 7566, 1, 35384), (7936, 7943, 1, 8),
   (7952, 7957, 1, 8), (7968, 7975, 1, 8), (7984, 7991, 1, 8), (8000, 8005, 1, 8),
   (8017, 8023, 2, 8), (8032, 8039, 1, 8), (8048, 8049, 1, 74), (8050, 8053, 1, 86),
   (8054, 8055, 1, 100), (8056, 8057, 1, 128), (8058, 8059, 1, 112), (8060, 8061, 1, 126),
   (8112, 8113, 1, 8), (8144, 8145, 1, 8), (8160, 8161, 1, 8), (8165, 8165, 1, 7),
   (42900, 42900, 1, 48)]

def foldUnit (u : Nat) : Nat :=
  match capitalsBelow.find? (fun run => run.covers u) with
  | some run => u - run.2.2.2
  | none =>
    match capitalsAbove.find? (fun run => run.covers u) with
    | some run => u + run.2.2.2
    | none => u

end TableQuery.Text
