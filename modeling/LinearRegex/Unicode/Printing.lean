import LinearRegex.Unicode.Property

/-!
# How characters print

The characters that print as themselves, and those that attach to the character before them.  Both
sets follow Unicode 17, which adds characters to the general categories that a pattern can name.
-/

namespace LinearRegex
namespace Unicode

/-- Marks that were added to Unicode after the general categories were fixed, and that attach to the
character before them. -/
def laterCombining : CharSet :=
  Table.read "1ACF-1ADD 1AE0-1AEB 10EFA-10EFB 11B60 11B62-11B64 11B66 1E6E3 1E6E6 1E6EE-1E6EF
    1E6F5"

/-- The other characters that were added to Unicode after the general categories were fixed. -/
def laterGraphic : CharSet :=
  Table.read "88F C5C CDC 20C1 2B96 A7CE-A7CF A7D2 A7D4 A7F1 FBC3-FBD2 FD90-FD91 FDC8-FDCE
    10940-10959 10EC5-10EC7 10ED0-10ED8 11B61 11B65 11B67 11DB0-11DDB 11DE0-11DE9 16EA0-16EB8
    16EBB-16ED3 16FF2-16FF6 187F8-187FF 18D09-18D1E 18D80-18DF2 1CCFA-1CCFC 1CEBA-1CED0
    1CEE0-1CEF0 1E6C0-1E6DE 1E6E0-1E6E2 1E6E4-1E6E5 1E6E7-1E6ED 1E6F0-1E6F4 1E6FE-1E6FF 1F6D8
    1F777-1F77A 1F8D0-1F8D8 1FA54-1FA57 1FA8A 1FA8E 1FAC8 1FACD 1FAEA 1FAEF 1FBFA 2B73A-2B73F
    2CEA2-2CEAD 323B0-33479"

/-- Korean letters without a shape, which stand where a part of a syllable is missing. -/
def fillers : CharSet :=
  Table.read "115F-1160 3164 FFA0"

/-- The characters of the categories that have a shape: all but controls, formats, private use,
separators and unassigned code points. -/
def graphicChars : CharSet :=
  CharSet.ofRanges <| laterGraphic.ranges ++ laterCombining.ranges ++ categoryUnion
    ["Ll", "Lm", "Lo", "Lt", "Lu", "Mc", "Me", "Mn", "Nd", "Nl", "No", "Pc", "Pd", "Pe", "Pf",
      "Pi", "Po", "Ps", "Sc", "Sk", "Sm", "So"]

/-- A character that prints as itself: one with a shape, or the space. -/
def isPrintable (c : Char) : Bool :=
  if c.toNat < 0x7F then ' ' ≤ c else graphicChars.contains c && !fillers.contains c

/-- Spacing marks and others that nevertheless attach to the character before them. -/
def otherCombining : CharSet :=
  Table.read "9BE 9D7 B3E B57 BBE BD7 CC0 CC2 CC7-CC8 CCA-CCB CD5-CD6 D3E D57 DCF DDF 1715 1734
    1B35 1B3B 1B3D 1B43-1B44 1BAA 1BF2-1BF3 200C 302E-302F A953 A9C0 FF9E-FF9F 111C0 11235 1133E
    1134D 11357 113B8 113C2 113C5 113C7-113C9 113CF 114B0 114BD 115AF 116B6 11930 1193D 11F41
    16FF0-16FF1 1D165-1D166 1D16D-1D172 E0020-E007F"

/-- The characters that attach to the one before them. -/
def combiningChars : CharSet :=
  CharSet.ofRanges <| otherCombining.ranges ++ laterCombining.ranges ++ categoryUnion ["Me", "Mn"]

def isCombining (c : Char) : Bool :=
  0x300 ≤ c.toNat && combiningChars.contains c

end Unicode
end LinearRegex
