/-
The marks with the property `Grapheme_Extend`, which are drawn onto the character before them, as of
Unicode 17.0. Letters with that property take a place of their own and are not among them.
-/
import RelSql.Text.Ranges

namespace RelSql.ExtendingMark

set_option maxRecDepth 4000

def ranges : Ranges := .ofCounts [
  (0x300, 111), (0x483, 6), (0x591, 44), (0x5BF, 0), (0x5C1, 1), (0x5C4, 1), (0x5C7, 0),
  (0x610, 10), (0x64B, 20), (0x670, 0), (0x6D6, 6), (0x6DF, 5), (0x6E7, 1), (0x6EA, 3), (0x711, 0),
  (0x730, 26), (0x7A6, 10), (0x7EB, 8), (0x7FD, 0), (0x816, 3), (0x81B, 8), (0x825, 2), (0x829, 4),
  (0x859, 2), (0x897, 8), (0x8CA, 23), (0x8E3, 31), (0x93A, 0), (0x93C, 0), (0x941, 7), (0x94D, 0),
  (0x951, 6), (0x962, 1), (0x981, 0), (0x9BC, 0), (0x9BE, 0), (0x9C1, 3), (0x9CD, 0), (0x9D7, 0),
  (0x9E2, 1), (0x9FE, 0), (0xA01, 1), (0xA3C, 0), (0xA41, 1), (0xA47, 1), (0xA4B, 2), (0xA51, 0),
  (0xA70, 1), (0xA75, 0), (0xA81, 1), (0xABC, 0), (0xAC1, 4), (0xAC7, 1), (0xACD, 0), (0xAE2, 1),
  (0xAFA, 5), (0xB01, 0), (0xB3C, 0), (0xB3E, 1), (0xB41, 3), (0xB4D, 0), (0xB55, 2), (0xB62, 1),
  (0xB82, 0), (0xBBE, 0), (0xBC0, 0), (0xBCD, 0), (0xBD7, 0), (0xC00, 0), (0xC04, 0), (0xC3C, 0),
  (0xC3E, 2), (0xC46, 2), (0xC4A, 3), (0xC55, 1), (0xC62, 1), (0xC81, 0), (0xCBC, 0), (0xCBF, 1),
  (0xCC2, 0), (0xCC6, 2), (0xCCA, 3), (0xCD5, 1), (0xCE2, 1), (0xD00, 1), (0xD3B, 1), (0xD3E, 0),
  (0xD41, 3), (0xD4D, 0), (0xD57, 0), (0xD62, 1), (0xD81, 0), (0xDCA, 0), (0xDCF, 0), (0xDD2, 2),
  (0xDD6, 0), (0xDDF, 0), (0xE31, 0), (0xE34, 6), (0xE47, 7), (0xEB1, 0), (0xEB4, 8), (0xEC8, 6),
  (0xF18, 1), (0xF35, 0), (0xF37, 0), (0xF39, 0), (0xF71, 13), (0xF80, 4), (0xF86, 1), (0xF8D, 10),
  (0xF99, 35), (0xFC6, 0), (0x102D, 3), (0x1032, 5), (0x1039, 1), (0x103D, 1), (0x1058, 1),
  (0x105E, 2), (0x1071, 3), (0x1082, 0), (0x1085, 1), (0x108D, 0), (0x109D, 0), (0x135D, 2),
  (0x1712, 3), (0x1732, 2), (0x1752, 1), (0x1772, 1), (0x17B4, 1), (0x17B7, 6), (0x17C6, 0),
  (0x17C9, 10), (0x17DD, 0), (0x180B, 2), (0x180F, 0), (0x1885, 1), (0x18A9, 0), (0x1920, 2),
  (0x1927, 1), (0x1932, 0), (0x1939, 2), (0x1A17, 1), (0x1A1B, 0), (0x1A56, 0), (0x1A58, 6),
  (0x1A60, 0), (0x1A62, 0), (0x1A65, 7), (0x1A73, 9), (0x1A7F, 0), (0x1AB0, 45), (0x1AE0, 11),
  (0x1B00, 3), (0x1B34, 9), (0x1B42, 2), (0x1B6B, 8), (0x1B80, 1), (0x1BA2, 3), (0x1BA8, 5),
  (0x1BE6, 0), (0x1BE8, 1), (0x1BED, 0), (0x1BEF, 4), (0x1C2C, 7), (0x1C36, 1), (0x1CD0, 2),
  (0x1CD4, 12), (0x1CE2, 6), (0x1CED, 0), (0x1CF4, 0), (0x1CF8, 1), (0x1DC0, 63), (0x20D0, 32),
  (0x2CEF, 2), (0x2D7F, 0), (0x2DE0, 31), (0x302A, 5), (0x3099, 1), (0xA66F, 3), (0xA674, 9),
  (0xA69E, 1), (0xA6F0, 1), (0xA802, 0), (0xA806, 0), (0xA80B, 0), (0xA825, 1), (0xA82C, 0),
  (0xA8C4, 1), (0xA8E0, 17), (0xA8FF, 0), (0xA926, 7), (0xA947, 10), (0xA953, 0), (0xA980, 2),
  (0xA9B3, 0), (0xA9B6, 3), (0xA9BC, 1), (0xA9C0, 0), (0xA9E5, 0), (0xAA29, 5), (0xAA31, 1),
  (0xAA35, 1), (0xAA43, 0), (0xAA4C, 0), (0xAA7C, 0), (0xAAB0, 0), (0xAAB2, 2), (0xAAB7, 1),
  (0xAABE, 1), (0xAAC1, 0), (0xAAEC, 1), (0xAAF6, 0), (0xABE5, 0), (0xABE8, 0), (0xABED, 0),
  (0xFB1E, 0), (0xFE00, 15), (0xFE20, 15), (0x101FD, 0), (0x102E0, 0), (0x10376, 4), (0x10A01, 2),
  (0x10A05, 1), (0x10A0C, 3), (0x10A38, 2), (0x10A3F, 0), (0x10AE5, 1), (0x10D24, 3), (0x10D69, 4),
  (0x10EAB, 1), (0x10EFA, 5), (0x10F46, 10), (0x10F82, 3), (0x11001, 0), (0x11038, 14),
  (0x11070, 0), (0x11073, 1), (0x1107F, 2), (0x110B3, 3), (0x110B9, 1), (0x110C2, 0), (0x11100, 2),
  (0x11127, 4), (0x1112D, 7), (0x11173, 0), (0x11180, 1), (0x111B6, 8), (0x111C0, 0), (0x111C9, 3),
  (0x111CF, 0), (0x1122F, 2), (0x11234, 3), (0x1123E, 0), (0x11241, 0), (0x112DF, 0), (0x112E3, 7),
  (0x11300, 1), (0x1133B, 1), (0x1133E, 0), (0x11340, 0), (0x1134D, 0), (0x11357, 0), (0x11366, 6),
  (0x11370, 4), (0x113B8, 0), (0x113BB, 5), (0x113C2, 0), (0x113C5, 0), (0x113C7, 2), (0x113CE, 2),
  (0x113D2, 0), (0x113E1, 1), (0x11438, 7), (0x11442, 2), (0x11446, 0), (0x1145E, 0), (0x114B0, 0),
  (0x114B3, 5), (0x114BA, 0), (0x114BD, 0), (0x114BF, 1), (0x114C2, 1), (0x115AF, 0), (0x115B2, 3),
  (0x115BC, 1), (0x115BF, 1), (0x115DC, 1), (0x11633, 7), (0x1163D, 0), (0x1163F, 1), (0x116AB, 0),
  (0x116AD, 0), (0x116B0, 7), (0x1171D, 0), (0x1171F, 0), (0x11722, 3), (0x11727, 4), (0x1182F, 8),
  (0x11839, 1), (0x11930, 0), (0x1193B, 3), (0x11943, 0), (0x119D4, 3), (0x119DA, 1), (0x119E0, 0),
  (0x11A01, 9), (0x11A33, 5), (0x11A3B, 3), (0x11A47, 0), (0x11A51, 5), (0x11A59, 2), (0x11A8A, 12),
  (0x11A98, 1), (0x11B60, 0), (0x11B62, 2), (0x11B66, 0), (0x11C30, 6), (0x11C38, 5), (0x11C3F, 0),
  (0x11C92, 21), (0x11CAA, 6), (0x11CB2, 1), (0x11CB5, 1), (0x11D31, 5), (0x11D3A, 0), (0x11D3C, 1),
  (0x11D3F, 6), (0x11D47, 0), (0x11D90, 1), (0x11D95, 0), (0x11D97, 0), (0x11EF3, 1), (0x11F00, 1),
  (0x11F36, 4), (0x11F40, 2), (0x11F5A, 0), (0x13440, 0), (0x13447, 14), (0x1611E, 11),
  (0x1612D, 2), (0x16AF0, 4), (0x16B30, 6), (0x16F4F, 0), (0x16F8F, 3), (0x16FE4, 0), (0x16FF0, 1),
  (0x1BC9D, 1), (0x1CF00, 45), (0x1CF30, 22), (0x1D165, 4), (0x1D16D, 5), (0x1D17B, 7),
  (0x1D185, 6), (0x1D1AA, 3), (0x1D242, 2), (0x1DA00, 54), (0x1DA3B, 49), (0x1DA75, 0),
  (0x1DA84, 0), (0x1DA9B, 4), (0x1DAA1, 14), (0x1E000, 6), (0x1E008, 16), (0x1E01B, 6),
  (0x1E023, 1), (0x1E026, 4), (0x1E08F, 0), (0x1E130, 6), (0x1E2AE, 0), (0x1E2EC, 3), (0x1E4EC, 3),
  (0x1E5EE, 1), (0x1E6E3, 0), (0x1E6E6, 0), (0x1E6EE, 1), (0x1E6F5, 0), (0x1E8D0, 6), (0x1E944, 6),
  (0xE0100, 239)]

theorem extendingMark_ascending : Ranges.ascending ranges = true := by decide +kernel

end RelSql.ExtendingMark
