/-
The characters with the property `Default_Ignorable_Code_Point`, for which nothing is drawn where
they have no effect, as of Unicode 17.0. Letters are among them: the fillers of Hangul syllables.
-/
import RelSql.Text.Ranges

namespace RelSql.DefaultIgnorable

def ranges : Ranges := .ofCounts [
  (0xAD, 0), (0x34F, 0), (0x61C, 0), (0x115F, 1), (0x17B4, 1), (0x180B, 4), (0x200B, 4),
  (0x202A, 4), (0x2060, 15), (0x3164, 0), (0xFE00, 15), (0xFEFF, 0), (0xFFA0, 0), (0xFFF0, 8),
  (0x1BCA0, 3), (0x1D173, 7), (0xE0000, 4095)]

theorem defaultIgnorable_ascending : Ranges.ascending ranges = true := by decide +kernel

end RelSql.DefaultIgnorable
