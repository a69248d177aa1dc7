/-!
The case of a letter: the derived properties Lowercase and Uppercase. One look-up gives the case, so
that no character has both.
-/

namespace EveryParse.Unicode

inductive Case where
  | lower
  | upper
  deriving DecidableEq, Repr

/-- How a range of cased characters is made up. In `pairs` a capital stands before each small
letter. -/
inductive Cased where
  | lower
  | upper
  | pairs

structure CasedRange where
  first : Nat
  last : Nat
  cased : Cased

def CasedRange.caseAt (range : CasedRange) (code : Nat) : Case :=
  match range.cased with
  | .lower => .lower
  | .upper => .upper
  | .pairs => if (code - range.first) % 2 = 0 then .upper else .lower

def caseIn : List CasedRange → Nat → Option Case
  | [], _ => none
  | range :: rest, code =>
    if code < range.first then none
    else if code ≤ range.last then some (range.caseAt code)
    else caseIn rest code

def casedRanges : List CasedRange := [
  ⟨0x0041, 0x005A, .upper⟩, ⟨0x0061, 0x007A, .lower⟩, ⟨0x00AA, 0x00AA, .lower⟩,
  ⟨0x00B5, 0x00B5, .lower⟩, ⟨0x00BA, 0x00BA, .lower⟩, ⟨0x00C0, 0x00D6, .upper⟩,
  ⟨0x00D8, 0x00DE, .upper⟩, ⟨0x00DF, 0x00F6, .lower⟩, ⟨0x00F8, 0x00FF, .lower⟩,
  ⟨0x0100, 0x0137, .pairs⟩, ⟨0x0138, 0x0138, .lower⟩, ⟨0x0139, 0x0148, .pairs⟩,
  ⟨0x0149, 0x0149, .lower⟩, ⟨0x014A, 0x0177, .pairs⟩, ⟨0x0178, 0x0179, .upper⟩,
  ⟨0x017A, 0x017A, .lower⟩, ⟨0x017B, 0x017E, .pairs⟩, ⟨0x017F, 0x0180, .lower⟩,
  ⟨0x0181, 0x0182, .upper⟩, ⟨0x0183, 0x0183, .lower⟩, ⟨0x0184, 0x0185, .pairs⟩,
  ⟨0x0186, 0x0187, .upper⟩, ⟨0x0188, 0x0188, .lower⟩, ⟨0x0189, 0x018B, .upper⟩,
  ⟨0x018C, 0x018D, .lower⟩, ⟨0x018E, 0x0191, .upper⟩, ⟨0x0192, 0x0192, .lower⟩,
  ⟨0x0193, 0x0194, .upper⟩, ⟨0x0195, 0x0195, .lower⟩, ⟨0x0196, 0x0198, .upper⟩,
  ⟨0x0199, 0x019B, .lower⟩, ⟨0x019C, 0x019D, .upper⟩, ⟨0x019E, 0x019E, .lower⟩,
  ⟨0x019F, 0x01A0, .upper⟩, ⟨0x01A1, 0x01A1, .lower⟩, ⟨0x01A2, 0x01A5, .pairs⟩,
  ⟨0x01A6, 0x01A7, .upper⟩, ⟨0x01A8, 0x01A8, .lower⟩, ⟨0x01A9, 0x01AA, .pairs⟩,
  ⟨0x01AB, 0x01AB, .lower⟩, ⟨0x01AC, 0x01AD, .pairs⟩, ⟨0x01AE, 0x01AF, .upper⟩,
  ⟨0x01B0, 0x01B0, .lower⟩, ⟨0x01B1, 0x01B3, .upper⟩, ⟨0x01B4, 0x01B4, .lower⟩,
  ⟨0x01B5, 0x01B6, .pairs⟩, ⟨0x01B7, 0x01B8, .upper⟩, ⟨0x01B9, 0x01BA, .lower⟩,
  ⟨0x01BC, 0x01BD, .pairs⟩, ⟨0x01BE, 0x01BF, .lower⟩, ⟨0x01C4, 0x01C4, .upper⟩,
  ⟨0x01C6, 0x01C6, .lower⟩, ⟨0x01C7, 0x01C7, .upper⟩, ⟨0x01C9, 0x01C9, .lower⟩,
  ⟨0x01CA, 0x01CA, .upper⟩, ⟨0x01CC, 0x01CC, .lower⟩, ⟨0x01CD, 0x01DC, .pairs⟩,
  ⟨0x01DD, 0x01DD, .lower⟩, ⟨0x01DE, 0x01EF, .pairs⟩, ⟨0x01F0, 0x01F0, .lower⟩,
  ⟨0x01F1, 0x01F1, .upper⟩, ⟨0x01F3, 0x01F3, .lower⟩, ⟨0x01F4, 0x01F5, .pairs⟩,
  ⟨0x01F6, 0x01F8, .upper⟩, ⟨0x01F9, 0x01F9, .lower⟩, ⟨0x01FA, 0x0233, .pairs⟩,
  ⟨0x0234, 0x0239, .lower⟩, ⟨0x023A, 0x023B, .upper⟩, ⟨0x023C, 0x023C, .lower⟩,
  ⟨0x023D, 0x023E, .upper⟩, ⟨0x023F, 0x0240, .lower⟩, ⟨0x0241, 0x0242, .pairs⟩,
  ⟨0x0243, 0x0246, .upper⟩, ⟨0x0247, 0x0247, .lower⟩, ⟨0x0248, 0x024F, .pairs⟩,
  ⟨0x0250, 0x0293, .lower⟩, ⟨0x0296, 0x02B8, .lower⟩, ⟨0x02C0, 0x02C1, .lower⟩,
  ⟨0x02E0, 0x02E4, .lower⟩, ⟨0x0345, 0x0345, .lower⟩, ⟨0x0370, 0x0373, .pairs⟩,
  ⟨0x0376, 0x0377, .pairs⟩, ⟨0x037A, 0x037D, .lower⟩, ⟨0x037F, 0x037F, .upper⟩,
  ⟨0x0386, 0x0386, .upper⟩, ⟨0x0388, 0x038A, .upper⟩, ⟨0x038C, 0x038C, .upper⟩,
  ⟨0x038E, 0x038F, .upper⟩, ⟨0x0390, 0x0390, .lower⟩, ⟨0x0391, 0x03A1, .upper⟩,
  ⟨0x03A3, 0x03AB, .upper⟩, ⟨0x03AC, 0x03CE, .lower⟩, ⟨0x03CF, 0x03D0, .pairs⟩,
  ⟨0x03D1, 0x03D1, .lower⟩, ⟨0x03D2, 0x03D4, .upper⟩, ⟨0x03D5, 0x03D7, .lower⟩,
  ⟨0x03D8, 0x03EF, .pairs⟩, ⟨0x03F0, 0x03F3, .lower⟩, ⟨0x03F4, 0x03F5, .pairs⟩,
  ⟨0x03F7, 0x03F8, .pairs⟩, ⟨0x03F9, 0x03FA, .upper⟩, ⟨0x03FB, 0x03FC, .lower⟩,
  ⟨0x03FD, 0x042F, .upper⟩, ⟨0x0430, 0x045F, .lower⟩, ⟨0x0460, 0x0481, .pairs⟩,
  ⟨0x048A, 0x04BF, .pairs⟩, ⟨0x04C0, 0x04C1, .upper⟩, ⟨0x04C2, 0x04C2, .lower⟩,
  ⟨0x04C3, 0x04CE, .pairs⟩, ⟨0x04CF, 0x04CF, .lower⟩, ⟨0x04D0, 0x052F, .pairs⟩,
  ⟨0x0531, 0x0556, .upper⟩, ⟨0x0560, 0x0588, .lower⟩, ⟨0x10A0, 0x10C5, .upper⟩,
  ⟨0x10C7, 0x10C7, .upper⟩, ⟨0x10CD, 0x10CD, .upper⟩, ⟨0x10D0, 0x10FA, .lower⟩,
  ⟨0x10FC, 0x10FF, .lower⟩, ⟨0x13A0, 0x13F5, .upper⟩, ⟨0x13F8, 0x13FD, .lower⟩,
  ⟨0x1C80, 0x1C88, .lower⟩, ⟨0x1C89, 0x1C8A, .pairs⟩, ⟨0x1C90, 0x1CBA, .upper⟩,
  ⟨0x1CBD, 0x1CBF, .upper⟩, ⟨0x1D00, 0x1DBF, .lower⟩, ⟨0x1E00, 0x1E95, .pairs⟩,
  ⟨0x1E96, 0x1E9D, .lower⟩, ⟨0x1E9E, 0x1EFF, .pairs⟩, ⟨0x1F00, 0x1F07, .lower⟩,
  ⟨0x1F08, 0x1F0F, .upper⟩, ⟨0x1F10, 0x1F15, .lower⟩, ⟨0x1F18, 0x1F1D, .upper⟩,
  ⟨0x1F20, 0x1F27, .lower⟩, ⟨0x1F28, 0x1F2F, .upper⟩, ⟨0x1F30, 0x1F37, .lower⟩,
  ⟨0x1F38, 0x1F3F, .upper⟩, ⟨0x1F40, 0x1F45, .lower⟩, ⟨0x1F48, 0x1F4D, .upper⟩,
  ⟨0x1F50, 0x1F57, .lower⟩, ⟨0x1F59, 0x1F59, .upper⟩, ⟨0x1F5B, 0x1F5B, .upper⟩,
  ⟨0x1F5D, 0x1F5D, .upper⟩, ⟨0x1F5F, 0x1F60, .pairs⟩, ⟨0x1F61, 0x1F67, .lower⟩,
  ⟨0x1F68, 0x1F6F, .upper⟩, ⟨0x1F70, 0x1F7D, .lower⟩, ⟨0x1F80, 0x1F87, .lower⟩,
  ⟨0x1F90, 0x1F97, .lower⟩, ⟨0x1FA0, 0x1FA7, .lower⟩, ⟨0x1FB0, 0x1FB4, .lower⟩,
  ⟨0x1FB6, 0x1FB7, .lower⟩, ⟨0x1FB8, 0x1FBB, .upper⟩, ⟨0x1FBE, 0x1FBE, .lower⟩,
  ⟨0x1FC2, 0x1FC4, .lower⟩, ⟨0x1FC6, 0x1FC7, .lower⟩, ⟨0x1FC8, 0x1FCB, .upper⟩,
  ⟨0x1FD0, 0x1FD3, .lower⟩, ⟨0x1FD6, 0x1FD7, .lower⟩, ⟨0x1FD8, 0x1FDB, .upper⟩,
  ⟨0x1FE0, 0x1FE7, .lower⟩, ⟨0x1FE8, 0x1FEC, .upper⟩, ⟨0x1FF2, 0x1FF4, .lower⟩,
  ⟨0x1FF6, 0x1FF7, .lower⟩, ⟨0x1FF8, 0x1FFB, .upper⟩, ⟨0x2071, 0x2071, .lower⟩,
  ⟨0x207F, 0x207F, .lower⟩, ⟨0x2090, 0x209C, .lower⟩, ⟨0x2102, 0x2102, .upper⟩,
  ⟨0x2107, 0x2107, .upper⟩, ⟨0x210A, 0x210A, .lower⟩, ⟨0x210B, 0x210D, .upper⟩,
  ⟨0x210E, 0x210F, .lower⟩, ⟨0x2110, 0x2112, .upper⟩, ⟨0x2113, 0x2113, .lower⟩,
  ⟨0x2115, 0x2115, .upper⟩, ⟨0x2119, 0x211D, .upper⟩, ⟨0x2124, 0x2124, .upper⟩,
  ⟨0x2126, 0x2126, .upper⟩, ⟨0x2128, 0x2128, .upper⟩, ⟨0x212A, 0x212D, .upper⟩,
  ⟨0x212F, 0x212F, .lower⟩, ⟨0x2130, 0x2133, .upper⟩, ⟨0x2134, 0x2134, .lower⟩,
  ⟨0x2139, 0x2139, .lower⟩, ⟨0x213C, 0x213D, .lower⟩, ⟨0x213E, 0x213F, .upper⟩,
  ⟨0x2145, 0x2146, .pairs⟩, ⟨0x2147, 0x2149, .lower⟩, ⟨0x214E, 0x214E, .lower⟩,
  ⟨0x2160, 0x216F, .upper⟩, ⟨0x2170, 0x217F, .lower⟩, ⟨0x2183, 0x2184, .pairs⟩,
  ⟨0x24B6, 0x24CF, .upper⟩, ⟨0x24D0, 0x24E9, .lower⟩, ⟨0x2C00, 0x2C2F, .upper⟩,
  ⟨0x2C30, 0x2C5F, .lower⟩, ⟨0x2C60, 0x2C61, .pairs⟩, ⟨0x2C62, 0x2C64, .upper⟩,
  ⟨0x2C65, 0x2C66, .lower⟩, ⟨0x2C67, 0x2C6C, .pairs⟩, ⟨0x2C6D, 0x2C70, .upper⟩,
  ⟨0x2C71, 0x2C71, .lower⟩, ⟨0x2C72, 0x2C73, .pairs⟩, ⟨0x2C74, 0x2C74, .lower⟩,
  ⟨0x2C75, 0x2C76, .pairs⟩, ⟨0x2C77, 0x2C7D, .lower⟩, ⟨0x2C7E, 0x2C80, .upper⟩,
  ⟨0x2C81, 0x2C81, .lower⟩, ⟨0x2C82, 0x2CE3, .pairs⟩, ⟨0x2CE4, 0x2CE4, .lower⟩,
  ⟨0x2CEB, 0x2CEE, .pairs⟩, ⟨0x2CF2, 0x2CF3, .pairs⟩, ⟨0x2D00, 0x2D25, .lower⟩,
  ⟨0x2D27, 0x2D27, .lower⟩, ⟨0x2D2D, 0x2D2D, .lower⟩, ⟨0xA640, 0xA66D, .pairs⟩,
  ⟨0xA680, 0xA69B, .pairs⟩, ⟨0xA69C, 0xA69D, .lower⟩, ⟨0xA722, 0xA72F, .pairs⟩,
  ⟨0xA730, 0xA731, .lower⟩, ⟨0xA732, 0xA76F, .pairs⟩, ⟨0xA770, 0xA778, .lower⟩,
  ⟨0xA779, 0xA77C, .pairs⟩, ⟨0xA77D, 0xA77E, .upper⟩, ⟨0xA77F, 0xA77F, .lower⟩,
  ⟨0xA780, 0xA787, .pairs⟩, ⟨0xA78B, 0xA78E, .pairs⟩, ⟨0xA790, 0xA793, .pairs⟩,
  ⟨0xA794, 0xA795, .lower⟩, ⟨0xA796, 0xA7A9, .pairs⟩, ⟨0xA7AA, 0xA7AE, .upper⟩,
  ⟨0xA7AF, 0xA7AF, .lower⟩, ⟨0xA7B0, 0xA7B4, .upper⟩, ⟨0xA7B5, 0xA7B5, .lower⟩,
  ⟨0xA7B6, 0xA7C3, .pairs⟩, ⟨0xA7C4, 0xA7C7, .upper⟩, ⟨0xA7C8, 0xA7C8, .lower⟩,
  ⟨0xA7C9, 0xA7CA, .pairs⟩, ⟨0xA7CB, 0xA7CC, .upper⟩, ⟨0xA7CD, 0xA7CD, .lower⟩,
  ⟨0xA7CE, 0xA7DB, .pairs⟩, ⟨0xA7DC, 0xA7DC, .upper⟩, ⟨0xA7F1, 0xA7F4, .lower⟩,
  ⟨0xA7F5, 0xA7F6, .pairs⟩, ⟨0xA7F8, 0xA7FA, .lower⟩, ⟨0xAB30, 0xAB5A, .lower⟩,
  ⟨0xAB5C, 0xAB69, .lower⟩, ⟨0xAB70, 0xABBF, .lower⟩, ⟨0xFB00, 0xFB06, .lower⟩,
  ⟨0xFB13, 0xFB17, .lower⟩, ⟨0xFF21, 0xFF3A, .upper⟩, ⟨0xFF41, 0xFF5A, .lower⟩,
  ⟨0x10400, 0x10427, .upper⟩, ⟨0x10428, 0x1044F, .lower⟩, ⟨0x104B0, 0x104D3, .upper⟩,
  ⟨0x104D8, 0x104FB, .lower⟩, ⟨0x10570, 0x1057A, .upper⟩, ⟨0x1057C, 0x1058A, .upper⟩,
  ⟨0x1058C, 0x10592, .upper⟩, ⟨0x10594, 0x10595, .upper⟩, ⟨0x10597, 0x105A1, .lower⟩,
  ⟨0x105A3, 0x105B1, .lower⟩, ⟨0x105B3, 0x105B9, .lower⟩, ⟨0x105BB, 0x105BC, .lower⟩,
  ⟨0x10780, 0x10780, .lower⟩, ⟨0x10783, 0x10785, .lower⟩, ⟨0x10787, 0x107B0, .lower⟩,
  ⟨0x107B2, 0x107BA, .lower⟩, ⟨0x10C80, 0x10CB2, .upper⟩, ⟨0x10CC0, 0x10CF2, .lower⟩,
  ⟨0x10D50, 0x10D65, .upper⟩, ⟨0x10D70, 0x10D85, .lower⟩, ⟨0x118A0, 0x118BF, .upper⟩,
  ⟨0x118C0, 0x118DF, .lower⟩, ⟨0x16E40, 0x16E5F, .upper⟩, ⟨0x16E60, 0x16E7F, .lower⟩,
  ⟨0x16EA0, 0x16EB8, .upper⟩, ⟨0x16EBB, 0x16ED3, .lower⟩, ⟨0x1D400, 0x1D419, .upper⟩,
  ⟨0x1D41A, 0x1D433, .lower⟩, ⟨0x1D434, 0x1D44D, .upper⟩, ⟨0x1D44E, 0x1D454, .lower⟩,
  ⟨0x1D456, 0x1D467, .lower⟩, ⟨0x1D468, 0x1D481, .upper⟩, ⟨0x1D482, 0x1D49B, .lower⟩,
  ⟨0x1D49C, 0x1D49C, .upper⟩, ⟨0x1D49E, 0x1D49F, .upper⟩, ⟨0x1D4A2, 0x1D4A2, .upper⟩,
  ⟨0x1D4A5, 0x1D4A6, .upper⟩, ⟨0x1D4A9, 0x1D4AC, .upper⟩, ⟨0x1D4AE, 0x1D4B5, .upper⟩,
  ⟨0x1D4B6, 0x1D4B9, .lower⟩, ⟨0x1D4BB, 0x1D4BB, .lower⟩, ⟨0x1D4BD, 0x1D4C3, .lower⟩,
  ⟨0x1D4C5, 0x1D4CF, .lower⟩, ⟨0x1D4D0, 0x1D4E9, .upper⟩, ⟨0x1D4EA, 0x1D503, .lower⟩,
  ⟨0x1D504, 0x1D505, .upper⟩, ⟨0x1D507, 0x1D50A, .upper⟩, ⟨0x1D50D, 0x1D514, .upper⟩,
  ⟨0x1D516, 0x1D51C, .upper⟩, ⟨0x1D51E, 0x1D537, .lower⟩, ⟨0x1D538, 0x1D539, .upper⟩,
  ⟨0x1D53B, 0x1D53E, .upper⟩, ⟨0x1D540, 0x1D544, .upper⟩, ⟨0x1D546, 0x1D546, .upper⟩,
  ⟨0x1D54A, 0x1D550, .upper⟩, ⟨0x1D552, 0x1D56B, .lower⟩, ⟨0x1D56C, 0x1D585, .upper⟩,
  ⟨0x1D586, 0x1D59F, .lower⟩, ⟨0x1D5A0, 0x1D5B9, .upper⟩, ⟨0x1D5BA, 0x1D5D3, .lower⟩,
  ⟨0x1D5D4, 0x1D5ED, .upper⟩, ⟨0x1D5EE, 0x1D607, .lower⟩, ⟨0x1D608, 0x1D621, .upper⟩,
  ⟨0x1D622, 0x1D63B, .lower⟩, ⟨0x1D63C, 0x1D655, .upper⟩, ⟨0x1D656, 0x1D66F, .lower⟩,
  ⟨0x1D670, 0x1D689, .upper⟩, ⟨0x1D68A, 0x1D6A5, .lower⟩, ⟨0x1D6A8, 0x1D6C0, .upper⟩,
  ⟨0x1D6C2, 0x1D6DA, .lower⟩, ⟨0x1D6DC, 0x1D6E1, .lower⟩, ⟨0x1D6E2, 0x1D6FA, .upper⟩,
  ⟨0x1D6FC, 0x1D714, .lower⟩, ⟨0x1D716, 0x1D71B, .lower⟩, ⟨0x1D71C, 0x1D734, .upper⟩,
  ⟨0x1D736, 0x1D74E, .lower⟩, ⟨0x1D750, 0x1D755, .lower⟩, ⟨0x1D756, 0x1D76E, .upper⟩,
  ⟨0x1D770, 0x1D788, .lower⟩, ⟨0x1D78A, 0x1D78F, .lower⟩, ⟨0x1D790, 0x1D7A8, .upper⟩,
  ⟨0x1D7AA, 0x1D7C2, .lower⟩, ⟨0x1D7C4, 0x1D7C9, .lower⟩, ⟨0x1D7CA, 0x1D7CB, .pairs⟩,
  ⟨0x1DF00, 0x1DF09, .lower⟩, ⟨0x1DF0B, 0x1DF1E, .lower⟩, ⟨0x1DF25, 0x1DF2A, .lower⟩,
  ⟨0x1E030, 0x1E06D, .lower⟩, ⟨0x1E900, 0x1E921, .upper⟩, ⟨0x1E922, 0x1E943, .lower⟩,
  ⟨0x1F130, 0x1F149, .upper⟩, ⟨0x1F150, 0x1F169, .upper⟩, ⟨0x1F170, 0x1F189, .upper⟩
]

def case? (c : Char) : Option Case :=
  caseIn casedRanges c.toNat

def isLower (c : Char) : Bool :=
  case? c == some .lower

def isUpper (c : Char) : Bool :=
  case? c == some .upper

end EveryParse.Unicode
