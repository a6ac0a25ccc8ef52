/-
The characters that show nothing by themselves: those of the general categories Control, Format,
Surrogate, Private_Use and Unassigned and all separators but the space, as of Unicode 17.0.
-/
import RelSql.Text.Ranges

namespace RelSql.Invisible

set_option maxRecDepth 4000

def ranges : Ranges := .ofCounts [
  (0x0, 31), (0x7F, 33), (0xAD, 0), (0x378, 1), (0x380, 3), (0x38B, 0), (0x38D, 0), (0x3A2, 0),
  (0x530, 0), (0x557, 1), (0x58B, 1), (0x590, 0), (0x5C8, 7), (0x5EB, 3), (0x5F5, 16), (0x61C, 0),
  (0x6DD, 0), (0x70E, 1), (0x74B, 1), (0x7B2, 13), (0x7FB, 1), (0x82E, 1), (0x83F, 0), (0x85C, 1),
  (0x85F, 0), (0x86B, 4), (0x890, 6), (0x8E2, 0), (0x984, 0), (0x98D, 1), (0x991, 1), (0x9A9, 0),
  (0x9B1, 0), (0x9B3, 2), (0x9BA, 1), (0x9C5, 1), (0x9C9, 1), (0x9CF, 7), (0x9D8, 3), (0x9DE, 0),
  (0x9E4, 1), (0x9FF, 1), (0xA04, 0), (0xA0B, 3), (0xA11, 1), (0xA29, 0), (0xA31, 0), (0xA34, 0),
  (0xA37, 0), (0xA3A, 1), (0xA3D, 0), (0xA43, 3), (0xA49, 1), (0xA4E, 2), (0xA52, 6), (0xA5D, 0),
  (0xA5F, 6), (0xA77, 9), (0xA84, 0), (0xA8E, 0), (0xA92, 0), (0xAA9, 0), (0xAB1, 0), (0xAB4, 0),
  (0xABA, 1), (0xAC6, 0), (0xACA, 0), (0xACE, 1), (0xAD1, 14), (0xAE4, 1), (0xAF2, 6), (0xB00, 0),
  (0xB04, 0), (0xB0D, 1), (0xB11, 1), (0xB29, 0), (0xB31, 0), (0xB34, 0), (0xB3A, 1), (0xB45, 1),
  (0xB49, 1), (0xB4E, 6), (0xB58, 3), (0xB5E, 0), (0xB64, 1), (0xB78, 9), (0xB84, 0), (0xB8B, 2),
  (0xB91, 0), (0xB96, 2), (0xB9B, 0), (0xB9D, 0), (0xBA0, 2), (0xBA5, 2), (0xBAB, 2), (0xBBA, 3),
  (0xBC3, 2), (0xBC9, 0), (0xBCE, 1), (0xBD1, 5), (0xBD8, 13), (0xBFB, 4), (0xC0D, 0), (0xC11, 0),
  (0xC29, 0), (0xC3A, 1), (0xC45, 0), (0xC49, 0), (0xC4E, 6), (0xC57, 0), (0xC5B, 0), (0xC5E, 1),
  (0xC64, 1), (0xC70, 6), (0xC8D, 0), (0xC91, 0), (0xCA9, 0), (0xCB4, 0), (0xCBA, 1), (0xCC5, 0),
  (0xCC9, 0), (0xCCE, 6), (0xCD7, 4), (0xCDF, 0), (0xCE4, 1), (0xCF0, 0), (0xCF4, 11), (0xD0D, 0),
  (0xD11, 0), (0xD45, 0), (0xD49, 0), (0xD50, 3), (0xD64, 1), (0xD80, 0), (0xD84, 0), (0xD97, 2),
  (0xDB2, 0), (0xDBC, 0), (0xDBE, 1), (0xDC7, 2), (0xDCB, 3), (0xDD5, 0), (0xDD7, 0), (0xDE0, 5),
  (0xDF0, 1), (0xDF5, 11), (0xE3B, 3), (0xE5C, 36), (0xE83, 0), (0xE85, 0), (0xE8B, 0), (0xEA4, 0),
  (0xEA6, 0), (0xEBE, 1), (0xEC5, 0), (0xEC7, 0), (0xECF, 0), (0xEDA, 1), (0xEE0, 31), (0xF48, 0),
  (0xF6D, 3), (0xF98, 0), (0xFBD, 0), (0xFCD, 0), (0xFDB, 36), (0x10C6, 0), (0x10C8, 4),
  (0x10CE, 1), (0x1249, 0), (0x124E, 1), (0x1257, 0), (0x1259, 0), (0x125E, 1), (0x1289, 0),
  (0x128E, 1), (0x12B1, 0), (0x12B6, 1), (0x12BF, 0), (0x12C1, 0), (0x12C6, 1), (0x12D7, 0),
  (0x1311, 0), (0x1316, 1), (0x135B, 1), (0x137D, 2), (0x139A, 5), (0x13F6, 1), (0x13FE, 1),
  (0x1680, 0), (0x169D, 2), (0x16F9, 6), (0x1716, 8), (0x1737, 8), (0x1754, 11), (0x176D, 0),
  (0x1771, 0), (0x1774, 11), (0x17DE, 1), (0x17EA, 5), (0x17FA, 5), (0x180E, 0), (0x181A, 5),
  (0x1879, 6), (0x18AB, 4), (0x18F6, 9), (0x191F, 0), (0x192C, 3), (0x193C, 3), (0x1941, 2),
  (0x196E, 1), (0x1975, 10), (0x19AC, 3), (0x19CA, 5), (0x19DB, 2), (0x1A1C, 1), (0x1A5F, 0),
  (0x1A7D, 1), (0x1A8A, 5), (0x1A9A, 5), (0x1AAE, 1), (0x1ADE, 1), (0x1AEC, 19), (0x1B4D, 0),
  (0x1BF4, 7), (0x1C38, 2), (0x1C4A, 2), (0x1C8B, 4), (0x1CBB, 1), (0x1CC8, 7), (0x1CFB, 4),
  (0x1F16, 1), (0x1F1E, 1), (0x1F46, 1), (0x1F4E, 1), (0x1F58, 0), (0x1F5A, 0), (0x1F5C, 0),
  (0x1F5E, 0), (0x1F7E, 1), (0x1FB5, 0), (0x1FC5, 0), (0x1FD4, 1), (0x1FDC, 0), (0x1FF0, 1),
  (0x1FF5, 0), (0x1FFF, 16), (0x2028, 7), (0x205F, 16), (0x2072, 1), (0x208F, 0), (0x209D, 2),
  (0x20C2, 13), (0x20F1, 14), (0x218C, 3), (0x242A, 21), (0x244B, 20), (0x2B74, 1), (0x2CF4, 4),
  (0x2D26, 0), (0x2D28, 4), (0x2D2E, 1), (0x2D68, 6), (0x2D71, 13), (0x2D97, 8), (0x2DA7, 0),
  (0x2DAF, 0), (0x2DB7, 0), (0x2DBF, 0), (0x2DC7, 0), (0x2DCF, 0), (0x2DD7, 0), (0x2DDF, 0),
  (0x2E5E, 33), (0x2E9A, 0), (0x2EF4, 11), (0x2FD6, 25), (0x3000, 0), (0x3040, 0), (0x3097, 1),
  (0x3100, 4), (0x3130, 0), (0x318F, 0), (0x31E6, 8), (0x321F, 0), (0xA48D, 2), (0xA4C7, 8),
  (0xA62C, 19), (0xA6F8, 7), (0xA7DD, 19), (0xA82D, 2), (0xA83A, 5), (0xA878, 7), (0xA8C6, 7),
  (0xA8DA, 5), (0xA954, 10), (0xA97D, 2), (0xA9CE, 0), (0xA9DA, 3), (0xA9FF, 0), (0xAA37, 8),
  (0xAA4E, 1), (0xAA5A, 1), (0xAAC3, 23), (0xAAF7, 9), (0xAB07, 1), (0xAB0F, 1), (0xAB17, 8),
  (0xAB27, 0), (0xAB2F, 0), (0xAB6C, 3), (0xABEE, 1), (0xABFA, 5), (0xD7A4, 11), (0xD7C7, 3),
  (0xD7FC, 8451), (0xFA6E, 1), (0xFADA, 37), (0xFB07, 11), (0xFB18, 4), (0xFB37, 0), (0xFB3D, 0),
  (0xFB3F, 0), (0xFB42, 0), (0xFB45, 0), (0xFDD0, 31), (0xFE1A, 5), (0xFE53, 0), (0xFE67, 0),
  (0xFE6C, 3), (0xFE75, 0), (0xFEFD, 3), (0xFFBF, 2), (0xFFC8, 1), (0xFFD0, 1), (0xFFD8, 1),
  (0xFFDD, 2), (0xFFE7, 0), (0xFFEF, 12), (0xFFFE, 1), (0x1000C, 0), (0x10027, 0), (0x1003B, 0),
  (0x1003E, 0), (0x1004E, 1), (0x1005E, 33), (0x100FB, 4), (0x10103, 3), (0x10134, 2), (0x1018F, 0),
  (0x1019D, 2), (0x101A1, 46), (0x101FE, 129), (0x1029D, 2), (0x102D1, 14), (0x102FC, 3),
  (0x10324, 8), (0x1034B, 4), (0x1037B, 4), (0x1039E, 0), (0x103C4, 3), (0x103D6, 41), (0x1049E, 1),
  (0x104AA, 5), (0x104D4, 3), (0x104FC, 3), (0x10528, 7), (0x10564, 10), (0x1057B, 0), (0x1058B, 0),
  (0x10593, 0), (0x10596, 0), (0x105A2, 0), (0x105B2, 0), (0x105BA, 0), (0x105BD, 2), (0x105F4, 11),
  (0x10737, 8), (0x10756, 9), (0x10768, 23), (0x10786, 0), (0x107B1, 0), (0x107BB, 68),
  (0x10806, 1), (0x10809, 0), (0x10836, 0), (0x10839, 2), (0x1083D, 1), (0x10856, 0), (0x1089F, 7),
  (0x108B0, 47), (0x108F3, 0), (0x108F6, 4), (0x1091C, 2), (0x1093A, 4), (0x1095A, 37),
  (0x109B8, 3), (0x109D0, 1), (0x10A04, 0), (0x10A07, 4), (0x10A14, 0), (0x10A18, 0), (0x10A36, 1),
  (0x10A3B, 3), (0x10A49, 6), (0x10A59, 6), (0x10AA0, 31), (0x10AE7, 3), (0x10AF7, 8), (0x10B36, 2),
  (0x10B56, 1), (0x10B73, 4), (0x10B92, 6), (0x10B9D, 11), (0x10BB0, 79), (0x10C49, 54),
  (0x10CB3, 12), (0x10CF3, 6), (0x10D28, 7), (0x10D3A, 5), (0x10D66, 2), (0x10D86, 7),
  (0x10D90, 207), (0x10E7F, 0), (0x10EAA, 0), (0x10EAE, 1), (0x10EB2, 15), (0x10EC8, 7),
  (0x10ED9, 32), (0x10F28, 7), (0x10F5A, 21), (0x10F8A, 37), (0x10FCC, 19), (0x10FF7, 8),
  (0x1104E, 3), (0x11076, 8), (0x110BD, 0), (0x110C3, 12), (0x110E9, 6), (0x110FA, 5), (0x11135, 0),
  (0x11148, 7), (0x11177, 8), (0x111E0, 0), (0x111F5, 10), (0x11212, 0), (0x11242, 61),
  (0x11287, 0), (0x11289, 0), (0x1128E, 0), (0x1129E, 0), (0x112AA, 5), (0x112EB, 4), (0x112FA, 5),
  (0x11304, 0), (0x1130D, 1), (0x11311, 1), (0x11329, 0), (0x11331, 0), (0x11334, 0), (0x1133A, 0),
  (0x11345, 1), (0x11349, 1), (0x1134E, 1), (0x11351, 5), (0x11358, 4), (0x11364, 1), (0x1136D, 2),
  (0x11375, 10), (0x1138A, 0), (0x1138C, 1), (0x1138F, 0), (0x113B6, 0), (0x113C1, 0), (0x113C3, 1),
  (0x113C6, 0), (0x113CB, 0), (0x113D6, 0), (0x113D9, 7), (0x113E3, 28), (0x1145C, 0),
  (0x11462, 29), (0x114C8, 7), (0x114DA, 165), (0x115B6, 1), (0x115DE, 33), (0x11645, 10),
  (0x1165A, 5), (0x1166D, 18), (0x116BA, 5), (0x116CA, 5), (0x116E4, 27), (0x1171B, 1),
  (0x1172C, 3), (0x11747, 184), (0x1183C, 99), (0x118F3, 11), (0x11907, 1), (0x1190A, 1),
  (0x11914, 0), (0x11917, 0), (0x11936, 0), (0x11939, 1), (0x11947, 8), (0x1195A, 69), (0x119A8, 1),
  (0x119D8, 1), (0x119E5, 26), (0x11A48, 7), (0x11AA3, 12), (0x11AF9, 6), (0x11B0A, 85),
  (0x11B68, 87), (0x11BE2, 13), (0x11BFA, 5), (0x11C09, 0), (0x11C37, 0), (0x11C46, 9),
  (0x11C6D, 2), (0x11C90, 1), (0x11CA8, 0), (0x11CB7, 72), (0x11D07, 0), (0x11D0A, 0), (0x11D37, 2),
  (0x11D3B, 0), (0x11D3E, 0), (0x11D48, 7), (0x11D5A, 5), (0x11D66, 0), (0x11D69, 0), (0x11D8F, 0),
  (0x11D92, 0), (0x11D99, 6), (0x11DAA, 5), (0x11DDC, 3), (0x11DEA, 245), (0x11EF9, 6),
  (0x11F11, 0), (0x11F3B, 2), (0x11F5B, 84), (0x11FB1, 14), (0x11FF2, 12), (0x1239A, 101),
  (0x1246F, 0), (0x12475, 10), (0x12544, 2635), (0x12FF3, 12), (0x13430, 15), (0x13456, 9),
  (0x143FB, 4), (0x14647, 6840), (0x1613A, 1733), (0x16A39, 6), (0x16A5F, 0), (0x16A6A, 3),
  (0x16ABF, 0), (0x16ACA, 5), (0x16AEE, 1), (0x16AF6, 9), (0x16B46, 9), (0x16B5A, 0), (0x16B62, 0),
  (0x16B78, 4), (0x16B90, 431), (0x16D7A, 197), (0x16E9B, 4), (0x16EB9, 1), (0x16ED4, 43),
  (0x16F4B, 3), (0x16F88, 6), (0x16FA0, 63), (0x16FE5, 10), (0x16FF7, 8), (0x18CD6, 40),
  (0x18D1F, 96), (0x18DF3, 8700), (0x1AFF4, 0), (0x1AFFC, 0), (0x1AFFF, 0), (0x1B123, 14),
  (0x1B133, 28), (0x1B153, 1), (0x1B156, 13), (0x1B168, 7), (0x1B2FC, 2307), (0x1BC6B, 4),
  (0x1BC7D, 2), (0x1BC89, 6), (0x1BC9A, 1), (0x1BCA0, 3935), (0x1CCFD, 2), (0x1CEB4, 5),
  (0x1CED1, 14), (0x1CEF1, 14), (0x1CF2E, 1), (0x1CF47, 8), (0x1CFC4, 59), (0x1D0F6, 9),
  (0x1D127, 1), (0x1D173, 7), (0x1D1EB, 20), (0x1D246, 121), (0x1D2D4, 11), (0x1D2F4, 11),
  (0x1D357, 8), (0x1D379, 134), (0x1D455, 0), (0x1D49D, 0), (0x1D4A0, 1), (0x1D4A3, 1),
  (0x1D4A7, 1), (0x1D4AD, 0), (0x1D4BA, 0), (0x1D4BC, 0), (0x1D4C4, 0), (0x1D506, 0), (0x1D50B, 1),
  (0x1D515, 0), (0x1D51D, 0), (0x1D53A, 0), (0x1D53F, 0), (0x1D545, 0), (0x1D547, 2), (0x1D551, 0),
  (0x1D6A6, 1), (0x1D7CC, 1), (0x1DA8C, 14), (0x1DAA0, 0), (0x1DAB0, 1103), (0x1DF1F, 5),
  (0x1DF2B, 212), (0x1E007, 0), (0x1E019, 1), (0x1E022, 0), (0x1E025, 0), (0x1E02B, 4),
  (0x1E06E, 32), (0x1E090, 111), (0x1E12D, 2), (0x1E13E, 1), (0x1E14A, 3), (0x1E150, 319),
  (0x1E2AF, 16), (0x1E2FA, 4), (0x1E300, 463), (0x1E4FA, 213), (0x1E5FB, 3), (0x1E600, 191),
  (0x1E6DF, 0), (0x1E6F6, 7), (0x1E700, 223), (0x1E7E7, 0), (0x1E7EC, 0), (0x1E7EF, 0),
  (0x1E7FF, 0), (0x1E8C5, 1), (0x1E8D7, 40), (0x1E94C, 3), (0x1E95A, 3), (0x1E960, 784),
  (0x1ECB5, 75), (0x1ED3E, 193), (0x1EE04, 0), (0x1EE20, 0), (0x1EE23, 0), (0x1EE25, 1),
  (0x1EE28, 0), (0x1EE33, 0), (0x1EE38, 0), (0x1EE3A, 0), (0x1EE3C, 5), (0x1EE43, 3), (0x1EE48, 0),
  (0x1EE4A, 0), (0x1EE4C, 0), (0x1EE50, 0), (0x1EE53, 0), (0x1EE55, 1), (0x1EE58, 0), (0x1EE5A, 0),
  (0x1EE5C, 0), (0x1EE5E, 0), (0x1EE60, 0), (0x1EE63, 0), (0x1EE65, 1), (0x1EE6B, 0), (0x1EE73, 0),
  (0x1EE78, 0), (0x1EE7D, 0), (0x1EE7F, 0), (0x1EE8A, 0), (0x1EE9C, 4), (0x1EEA4, 0), (0x1EEAA, 0),
  (0x1EEBC, 51), (0x1EEF2, 269), (0x1F02C, 3), (0x1F094, 11), (0x1F0AF, 1), (0x1F0C0, 0),
  (0x1F0D0, 0), (0x1F0F6, 9), (0x1F1AE, 55), (0x1F203, 12), (0x1F23C, 3), (0x1F249, 6),
  (0x1F252, 13), (0x1F266, 153), (0x1F6D9, 2), (0x1F6ED, 2), (0x1F6FD, 2), (0x1F7DA, 5),
  (0x1F7EC, 3), (0x1F7F1, 14), (0x1F80C, 3), (0x1F848, 7), (0x1F85A, 5), (0x1F888, 7), (0x1F8AE, 1),
  (0x1F8BC, 3), (0x1F8C2, 13), (0x1F8D9, 38), (0x1FA58, 7), (0x1FA6E, 1), (0x1FA7D, 2),
  (0x1FA8B, 2), (0x1FAC7, 0), (0x1FAC9, 3), (0x1FADD, 1), (0x1FAEB, 3), (0x1FAF9, 6), (0x1FB93, 0),
  (0x1FBFB, 1028), (0x2A6E0, 31), (0x2B81E, 1), (0x2CEAE, 1), (0x2EBE1, 14), (0x2EE5E, 2465),
  (0x2FA1E, 1505), (0x3134B, 4), (0x3347A, 707717), (0xE01F0, 196111)]

theorem invisible_ascending : Ranges.ascending ranges = true := by decide +kernel

end RelSql.Invisible
