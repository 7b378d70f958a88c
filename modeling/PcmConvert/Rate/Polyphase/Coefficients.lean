/-
  PcmConvert.Rate.Polyphase.Coefficients — the filters of the polyphase cascades, in
  units of 2⁻¹⁵. A filter that raises the rate `up` times has `up` phases; each is a
  Kaiser windowed sinc (shape 7.5, passband to 0.9 of the lower Nyquist frequency) seen
  at its own offset, and sums to exactly 2¹⁵. One row is one phase.
-/

namespace PcmConvert.Rate.Coefficients

/-- Up 2, down 1: 2 phases of 24 taps. -/
def double : List (List Int) :=
  [[5, -20, 40, -52, 21, 109, -405, 946, -1813, 3141, -5379, 11697, 27055, -3074, 321, 577, -817, 750, -559, 352,
    -186, 80, -26, 5],
   [5, -26, 80, -186, 352, -559, 750, -817, 577, 321, -3074, 27055, 11697, -5379, 3141, -1813, 946, -405, 109, 21,
    -52, 40, -20, 5]]

/-- Up 1, down 2: 1 phase of 48 taps. -/
def halve : List (List Int) :=
  [[3, 2, -10, -13, 20, 40, -26, -93, 10, 176, 54, -279, -203, 375, 473, -408, -906, 289, 1570, 161, -2689, -1537,
    5848, 13527, 13527, 5848, -1537, -2689, 161, 1570, 289, -906, -408, 473, 375, -203, -279, 54, 176, 10, -93,
    -26, 40, 20, -13, -10, 2, 3]]

/-- Up 3, down 1: 3 phases of 24 taps. -/
def triple : List (List Int) :=
  [[4, -15, 26, -20, -39, 202, -527, 1067, -1866, 2985, -4671, 8703, 28393, -1353, -672, 1168, -1148, 914, -623,
    366, -180, 71, -19, 2],
   [8, -30, 76, -145, 216, -241, 137, 218, -999, 2531, -5865, 20479, 20477, -5865, 2531, -999, 218, 137, -241, 216,
    -145, 76, -30, 8],
   [2, -19, 71, -180, 366, -623, 914, -1148, 1168, -672, -1353, 28393, 8703, -4671, 2985, -1866, 1067, -527, 202,
    -39, -20, 26, -15, 4]]

/-- Up 1, down 3: 1 phase of 72 taps. -/
def third : List (List Int) :=
  [[1, 3, 1, -5, -10, -6, 9, 25, 24, -7, -48, -60, -13, 72, 122, 67, -80, -208, -176, 46, 305, 356, 73, -383, -622,
    -333, 389, 995, 844, -224, -1557, -1955, -451, 2901, 6826, 9464, 9462, 6826, 2901, -451, -1955, -1557, -224,
    844, 995, 389, -333, -622, -383, 73, 356, 305, 46, -176, -208, -80, 67, 122, 72, -13, -60, -48, -7, 24, 25, 9,
    -6, -10, -5, 1, 3, 1]]

/-- Up 3, down 2: 3 phases of 36 taps. -/
def up3down2 : List (List Int) :=
  [[0, -4, 14, -33, 63, -103, 143, -169, 156, -76, -104, 412, -868, 1489, -2290, 3333, -4889, 8785, 28404, -1378,
    -716, 1341, -1465, 1342, -1096, 809, -534, 306, -139, 33, 22, -40, 38, -27, 15, -6],
   [-3, 5, -4, -7, 34, -86, 164, -268, 382, -480, 523, -455, 213, 291, -1184, 2757, -6047, 20550, 20548, -6047,
    2757, -1184, 291, 213, -455, 523, -480, 382, -268, 164, -86, 34, -7, -4, 5, -3],
   [-6, 15, -27, 38, -40, 22, 33, -139, 306, -534, 809, -1096, 1342, -1465, 1341, -716, -1378, 28404, 8785, -4889,
    3333, -2290, 1489, -868, 412, -104, -76, 156, -169, 143, -103, 63, -33, 14, -4, 0]]

/-- Up 2, down 3: 2 phases of 36 taps. -/
def up2down3 : List (List Int) :=
  [[3, 1, -20, 18, 47, -96, -26, 244, -161, -351, 609, 145, -1244, 779, 1688, -3114, -902, 13653, 18926, 5802,
    -3910, -448, 1990, -666, -765, 711, 91, -415, 135, 144, -120, -13, 51, -13, -10, 5],
   [5, -10, -13, 51, -13, -120, 144, 135, -415, 91, 711, -765, -666, 1990, -448, -3910, 5802, 18926, 13653, -902,
    -3114, 1688, 779, -1244, 145, 609, -351, -161, 244, -26, -96, 47, 18, -20, 1, 3]]

/-- Up 10, down 7: 10 phases of 24 taps. -/
def up10down7 : List (List Int) :=
  [[3, -8, 7, 20, -109, 300, -632, 1123, -1765, 2523, -3393, 4726, 29395, 1663, -2149, 1953, -1537, 1072, -659,
    349, -152, 48, -7, -3],
   [4, -14, 23, -14, -50, 219, -547, 1083, -1863, 2936, -4506, 8115, 28600, -964, -879, 1285, -1210, 942, -632,
    366, -178, 68, -18, 2],
   [5, -20, 40, -52, 21, 109, -405, 946, -1813, 3141, -5379, 11697, 27055, -3074, 321, 577, -817, 750, -559, 352,
    -186, 80, -26, 5],
   [7, -25, 57, -91, 99, -23, -215, 715, -1603, 3099, -5909, 15320, 24830, -4621, 1371, -111, -394, 516, -448, 312,
    -179, 84, -30, 7],
   [7, -29, 71, -128, 178, -168, 13, 401, -1237, 2789, -6005, 18823, 22046, -5592, 2207, -730, 22, 264, -314, 252,
    -159, 80, -31, 8],
   [8, -31, 80, -159, 252, -314, 264, 22, -730, 2207, -5592, 22046, 18823, -6005, 2789, -1237, 401, 13, -168, 178,
    -128, 71, -29, 7],
   [7, -30, 84, -179, 312, -448, 516, -394, -111, 1371, -4621, 24830, 15320, -5909, 3099, -1603, 715, -215, -23,
    99, -91, 57, -25, 7],
   [5, -26, 80, -186, 352, -559, 750, -817, 577, 321, -3074, 27055, 11697, -5379, 3141, -1813, 946, -405, 109, 21,
    -52, 40, -20, 5],
   [2, -18, 68, -178, 366, -632, 942, -1210, 1285, -879, -964, 28600, 8115, -4506, 2936, -1863, 1083, -547, 219,
    -50, -14, 23, -14, 4],
   [-3, -7, 48, -152, 349, -659, 1072, -1537, 1953, -2149, 1663, 29395, 4726, -3393, 2523, -1765, 1123, -632, 300,
    -109, 20, 7, -8, 3]]

/-- Up 16, down 21: 16 phases of 32 taps. -/
def up16down21 : List (List Int) :=
  [[0, 7, -23, 16, 53, -146, 115, 161, -517, 479, 304, -1425, 1622, 348, -4477, 9245, 22455, 7931, -4581, 741,
    1394, -1438, 428, 389, -508, 196, 84, -139, 59, 9, -21, 7],
   [1, 7, -24, 23, 44, -150, 145, 120, -517, 564, 169, -1384, 1831, -72, -4280, 10563, 22314, 6634, -4596, 1100,
    1150, -1425, 539, 296, -491, 227, 54, -130, 64, 3, -18, 7],
   [1, 6, -26, 29, 35, -152, 173, 75, -506, 642, 25, -1315, 2014, -513, -3986, 11871, 22041, 5366, -4529, 1422,
    897, -1386, 635, 201, -465, 252, 24, -119, 68, -3, -16, 7],
   [2, 5, -27, 36, 23, -151, 201, 26, -485, 712, -126, -1218, 2168, -970, -3593, 13156, 21632, 4139, -4384, 1702,
    638, -1324, 716, 107, -431, 270, -5, -106, 70, -8, -14, 7],
   [2, 4, -27, 43, 11, -147, 225, -26, -454, 770, -281, -1094, 2289, -1433, -3101, 14406, 21097, 2963, -4171, 1938,
    379, -1241, 781, 15, -392, 283, -32, -92, 70, -13, -11, 7],
   [3, 2, -27, 49, -2, -140, 247, -80, -413, 817, -438, -943, 2371, -1896, -2508, 15606, 20437, 1850, -3896, 2128,
    124, -1138, 828, -73, -347, 291, -56, -78, 70, -17, -9, 6],
   [4, 0, -26, 55, -17, -129, 265, -135, -362, 851, -593, -769, 2413, -2350, -1818, 16743, 19662, 808, -3567, 2270,
    -122, -1019, 859, -156, -298, 292, -79, -62, 68, -20, -6, 6],
   [4, -2, -25, 60, -32, -115, 279, -191, -302, 869, -744, -572, 2412, -2786, -1032, 17806, 18788, -155, -3194,
    2364, -355, -887, 872, -233, -245, 288, -99, -47, 64, -23, -4, 5],
   [5, -4, -23, 64, -47, -99, 288, -245, -233, 872, -887, -355, 2364, -3194, -155, 18788, 17806, -1032, -2786,
    2412, -572, -744, 869, -302, -191, 279, -115, -32, 60, -25, -2, 4],
   [6, -6, -20, 68, -62, -79, 292, -298, -156, 859, -1019, -122, 2270, -3567, 808, 19662, 16743, -1818, -2350,
    2413, -769, -593, 851, -362, -135, 265, -129, -17, 55, -26, 0, 4],
   [6, -9, -17, 70, -78, -56, 291, -347, -73, 828, -1138, 124, 2128, -3896, 1850, 20437, 15606, -2508, -1896, 2371,
    -943, -438, 817, -413, -80, 247, -140, -2, 49, -27, 2, 3],
   [7, -11, -13, 70, -92, -32, 283, -392, 15, 781, -1241, 379, 1938, -4171, 2963, 21097, 14406, -3101, -1433, 2289,
    -1094, -281, 770, -454, -26, 225, -147, 11, 43, -27, 4, 2],
   [7, -14, -8, 70, -106, -5, 270, -431, 107, 716, -1324, 638, 1702, -4384, 4139, 21632, 13156, -3593, -970, 2168,
    -1218, -126, 712, -485, 26, 201, -151, 23, 36, -27, 5, 2],
   [7, -16, -3, 68, -119, 24, 252, -465, 201, 635, -1386, 897, 1422, -4529, 5366, 22041, 11871, -3986, -513, 2014,
    -1315, 25, 642, -506, 75, 173, -152, 35, 29, -26, 6, 1],
   [7, -18, 3, 64, -130, 54, 227, -491, 296, 539, -1425, 1150, 1100, -4596, 6634, 22314, 10563, -4280, -72, 1831,
    -1384, 169, 564, -517, 120, 145, -150, 44, 23, -24, 7, 1],
   [7, -21, 9, 59, -139, 84, 196, -508, 389, 428, -1438, 1394, 741, -4581, 7931, 22455, 9245, -4477, 348, 1622,
    -1425, 304, 479, -517, 161, 115, -146, 53, 16, -23, 7, 0]]

/-- Up 21, down 20: 21 phases of 24 taps. -/
def up21down20 : List (List Int) :=
  [[2, -7, 3, 28, -122, 316, -644, 1118, -1716, 2387, -3075, 3887, 29469, 2427, -2481, 2115, -1608, 1094, -657,
    339, -142, 42, -3, -4],
   [3, -9, 11, 13, -97, 285, -618, 1122, -1797, 2626, -3646, 5429, 29289, 1060, -1875, 1816, -1474, 1050, -658,
    355, -159, 53, -9, -2],
   [3, -12, 18, -3, -70, 247, -579, 1105, -1848, 2828, -4182, 7039, 28931, -203, -1269, 1499, -1320, 990, -646,
    364, -172, 63, -15, 0],
   [4, -15, 26, -20, -39, 202, -527, 1067, -1866, 2985, -4671, 8703, 28393, -1353, -672, 1168, -1148, 914, -623,
    366, -180, 71, -19, 2],
   [5, -18, 34, -38, -6, 151, -462, 1006, -1849, 3094, -5101, 10405, 27688, -2383, -94, 831, -962, 824, -590, 360,
    -185, 77, -23, 4],
   [6, -20, 42, -57, 30, 94, -385, 923, -1796, 3149, -5462, 12129, 26823, -3289, 456, 493, -767, 724, -547, 348,
    -186, 81, -26, 5],
   [6, -23, 50, -76, 67, 32, -297, 819, -1707, 3148, -5742, 13859, 25807, -4065, 969, 162, -566, 614, -497, 331,
    -184, 83, -28, 6],
   [7, -25, 58, -94, 104, -33, -200, 695, -1582, 3086, -5932, 15576, 24651, -4710, 1438, -158, -364, 499, -439,
    308, -178, 84, -30, 7],
   [7, -27, 65, -112, 142, -101, -94, 552, -1421, 2964, -6021, 17263, 23369, -5224, 1858, -461, -163, 379, -377,
    281, -170, 83, -31, 7],
   [7, -29, 71, -129, 180, -171, 19, 393, -1226, 2779, -6001, 18903, 21970, -5608, 2224, -743, 32, 258, -310, 250,
    -158, 80, -31, 8],
   [8, -30, 76, -145, 216, -241, 137, 218, -999, 2531, -5865, 20479, 20477, -5865, 2531, -999, 218, 137, -241, 216,
    -145, 76, -30, 8],
   [8, -31, 80, -158, 250, -310, 258, 32, -743, 2224, -5608, 21970, 18903, -6001, 2779, -1226, 393, 19, -171, 180,
    -129, 71, -29, 7],
   [7, -31, 83, -170, 281, -377, 379, -163, -461, 1858, -5224, 23369, 17263, -6021, 2964, -1421, 552, -94, -101,
    142, -112, 65, -27, 7],
   [7, -30, 84, -178, 308, -439, 499, -364, -158, 1438, -4710, 24651, 15576, -5932, 3086, -1582, 695, -200, -33,
    104, -94, 58, -25, 7],
   [6, -28, 83, -184, 331, -497, 614, -566, 162, 969, -4065, 25807, 13859, -5742, 3148, -1707, 819, -297, 32, 67,
    -76, 50, -23, 6],
   [5, -26, 81, -186, 348, -547, 724, -767, 493, 456, -3289, 26823, 12129, -5462, 3149, -1796, 923, -385, 94, 30,
    -57, 42, -20, 6],
   [4, -23, 77, -185, 360, -590, 824, -962, 831, -94, -2383, 27688, 10405, -5101, 3094, -1849, 1006, -462, 151, -6,
    -38, 34, -18, 5],
   [2, -19, 71, -180, 366, -623, 914, -1148, 1168, -672, -1353, 28393, 8703, -4671, 2985, -1866, 1067, -527, 202,
    -39, -20, 26, -15, 4],
   [0, -15, 63, -172, 364, -646, 990, -1320, 1499, -1269, -203, 28931, 7039, -4182, 2828, -1848, 1105, -579, 247,
    -70, -3, 18, -12, 3],
   [-2, -9, 53, -159, 355, -658, 1050, -1474, 1816, -1875, 1060, 29289, 5429, -3646, 2626, -1797, 1122, -618, 285,
    -97, 13, 11, -9, 3],
   [-4, -3, 42, -142, 339, -657, 1094, -1608, 2115, -2481, 2427, 29469, 3887, -3075, 2387, -1716, 1118, -644, 316,
    -122, 28, 3, -7, 2]]

/-- Up 7, down 8: 7 phases of 32 taps. -/
def up7down8 : List (List Int) :=
  [[3, -7, 2, 26, -84, 141, -127, -35, 366, -751, 925, -550, -623, 2597, -5131, 8299, 25668, 4518, -4350, 2886,
    -1229, -28, 648, -704, 451, -148, -48, 107, -82, 36, -5, -3],
   [3, -10, 12, 11, -74, 160, -201, 96, 223, -703, 1108, -1052, 133, 1925, -5351, 12259, 24598, 1153, -3175, 2801,
    -1630, 448, 318, -577, 472, -231, 29, 65, -70, 39, -11, 0],
   [4, -13, 22, -8, -52, 159, -256, 230, 35, -557, 1163, -1468, 955, 905, -4879, 16131, 22537, -1606, -1790, 2393,
    -1797, 826, -18, -393, 435, -276, 92, 21, -52, 37, -14, 2],
   [3, -15, 30, -30, -20, 137, -284, 349, -180, -321, 1070, -1733, 1744, -375, -3635, 19642, 19646, -3635, -375,
    1744, -1733, 1070, -321, -180, 349, -284, 137, -20, -30, 30, -15, 3],
   [2, -14, 37, -52, 21, 92, -276, 435, -393, -18, 826, -1797, 2393, -1790, -1606, 22537, 16131, -4879, 905, 955,
    -1468, 1163, -557, 35, 230, -256, 159, -52, -8, 22, -13, 4],
   [0, -11, 39, -70, 65, 29, -231, 472, -577, 318, 448, -1630, 2801, -3175, 1153, 24598, 12259, -5351, 1925, 133,
    -1052, 1108, -703, 223, 96, -201, 160, -74, 11, 12, -10, 3],
   [-3, -5, 36, -82, 107, -48, -148, 451, -704, 648, -28, -1229, 2886, -4350, 4518, 25668, 8299, -5131, 2597, -623,
    -550, 925, -751, 366, -35, -127, 141, -84, 26, 2, -7, 3]]

end PcmConvert.Rate.Coefficients
