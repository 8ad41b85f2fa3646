import TreeDerivation.Text.CodeSet

/-!
# How characters join into clusters

Each character has one class that decides, together with its neighbours, whether a user-perceived
character may end before it (Unicode 17.0, extended grapheme clusters). Syllables of Hangul are
classed by arithmetic, all else by table.
-/

namespace TreeDerivation.Text

/-- What a character is to the characters around it. -/
inductive ClusterClass where
  | carriageReturn
  | lineFeed
  | control
  | extend
  | joiner
  | spacingMark
  | prepend
  | regional
  | leading
  | vowel
  | trailing
  | openSyllable
  | closedSyllable
  | pictograph
  | consonant
  | other
  deriving DecidableEq

/-- Controls and other characters that stand alone. -/
def controlSet : CodeSet :=
  ⟨[0x0000, 0x000a, 0x000b, 0x000d, 0x000e, 0x0020, 0x007f, 0x00a0, 0x00ad,
   0x00ae, 0x061c, 0x061d, 0x180e, 0x180f, 0x200b, 0x200c, 0x200e, 0x2010,
   0x2028, 0x202f, 0x2060, 0x2070, 0xfeff, 0xff00, 0xfff0, 0xfffc, 0x13430,
   0x13440, 0x1bca0, 0x1bca4, 0x1d173, 0x1d17b, 0xe0000, 0xe0020, 0xe0080, 0xe0100,
   0xe01f0, 0xe1000]⟩

set_option maxRecDepth 20000 in
/-- Marks that extend the character before them. -/
def extendSet : CodeSet :=
  ⟨[0x0300, 0x0370, 0x0483, 0x048a, 0x0591, 0x05be, 0x05bf, 0x05c0, 0x05c1,
   0x05c3, 0x05c4, 0x05c6, 0x05c7, 0x05c8, 0x0610, 0x061b, 0x064b, 0x0660,
   0x0670, 0x0671, 0x06d6, 0x06dd, 0x06df, 0x06e5, 0x06e7, 0x06e9, 0x06ea,
   0x06ee, 0x0711, 0x0712, 0x0730, 0x074b, 0x07a6, 0x07b1, 0x07eb, 0x07f4,
   0x07fd, 0x07fe, 0x0816, 0x081a, 0x081b, 0x0824, 0x0825, 0x0828, 0x0829,
   0x082e, 0x0859, 0x085c, 0x0897, 0x08a0, 0x08ca, 0x08e2, 0x08e3, 0x0903,
   0x093a, 0x093b, 0x093c, 0x093d, 0x0941, 0x0949, 0x094d, 0x094e, 0x0951,
   0x0958, 0x0962, 0x0964, 0x0981, 0x0982, 0x09bc, 0x09bd, 0x09be, 0x09bf,
   0x09c1, 0x09c5, 0x09cd, 0x09ce, 0x09d7, 0x09d8, 0x09e2, 0x09e4, 0x09fe,
   0x09ff, 0x0a01, 0x0a03, 0x0a3c, 0x0a3d, 0x0a41, 0x0a43, 0x0a47, 0x0a49,
   0x0a4b, 0x0a4e, 0x0a51, 0x0a52, 0x0a70, 0x0a72, 0x0a75, 0x0a76, 0x0a81,
   0x0a83, 0x0abc, 0x0abd, 0x0ac1, 0x0ac6, 0x0ac7, 0x0ac9, 0x0acd, 0x0ace,
   0x0ae2, 0x0ae4, 0x0afa, 0x0b00, 0x0b01, 0x0b02, 0x0b3c, 0x0b3d, 0x0b3e,
   0x0b40, 0x0b41, 0x0b45, 0x0b4d, 0x0b4e, 0x0b55, 0x0b58, 0x0b62, 0x0b64,
   0x0b82, 0x0b83, 0x0bbe, 0x0bbf, 0x0bc0, 0x0bc1, 0x0bcd, 0x0bce, 0x0bd7,
   0x0bd8, 0x0c00, 0x0c01, 0x0c04, 0x0c05, 0x0c3c, 0x0c3d, 0x0c3e, 0x0c41,
   0x0c46, 0x0c49, 0x0c4a, 0x0c4e, 0x0c55, 0x0c57, 0x0c62, 0x0c64, 0x0c81,
   0x0c82, 0x0cbc, 0x0cbd, 0x0cbf, 0x0cc1, 0x0cc2, 0x0cc3, 0x0cc6, 0x0cc9,
   0x0cca, 0x0cce, 0x0cd5, 0x0cd7, 0x0ce2, 0x0ce4, 0x0d00, 0x0d02, 0x0d3b,
   0x0d3d, 0x0d3e, 0x0d3f, 0x0d41, 0x0d45, 0x0d4d, 0x0d4e, 0x0d57, 0x0d58,
   0x0d62, 0x0d64, 0x0d81, 0x0d82, 0x0dca, 0x0dcb, 0x0dcf, 0x0dd0, 0x0dd2,
   0x0dd5, 0x0dd6, 0x0dd7, 0x0ddf, 0x0de0, 0x0e31, 0x0e32, 0x0e34, 0x0e3b,
   0x0e47, 0x0e4f, 0x0eb1, 0x0eb2, 0x0eb4, 0x0ebd, 0x0ec8, 0x0ecf, 0x0f18,
   0x0f1a, 0x0f35, 0x0f36, 0x0f37, 0x0f38, 0x0f39, 0x0f3a, 0x0f71, 0x0f7f,
   0x0f80, 0x0f85, 0x0f86, 0x0f88, 0x0f8d, 0x0f98, 0x0f99, 0x0fbd, 0x0fc6,
   0x0fc7, 0x102d, 0x1031, 0x1032, 0x1038, 0x1039, 0x103b, 0x103d, 0x103f,
   0x1058, 0x105a, 0x105e, 0x1061, 0x1071, 0x1075, 0x1082, 0x1083, 0x1085,
   0x1087, 0x108d, 0x108e, 0x109d, 0x109e, 0x135d, 0x1360, 0x1712, 0x1716,
   0x1732, 0x1735, 0x1752, 0x1754, 0x1772, 0x1774, 0x17b4, 0x17b6, 0x17b7,
   0x17be, 0x17c6, 0x17c7, 0x17c9, 0x17d4, 0x17dd, 0x17de, 0x180b, 0x180e,
   0x180f, 0x1810, 0x1885, 0x1887, 0x18a9, 0x18aa, 0x1920, 0x1923, 0x1927,
   0x1929, 0x1932, 0x1933, 0x1939, 0x193c, 0x1a17, 0x1a19, 0x1a1b, 0x1a1c,
   0x1a56, 0x1a57, 0x1a58, 0x1a5f, 0x1a60, 0x1a61, 0x1a62, 0x1a63, 0x1a65,
   0x1a6d, 0x1a73, 0x1a7d, 0x1a7f, 0x1a80, 0x1ab0, 0x1ade, 0x1ae0, 0x1aec,
   0x1b00, 0x1b04, 0x1b34, 0x1b3e, 0x1b42, 0x1b45, 0x1b6b, 0x1b74, 0x1b80,
   0x1b82, 0x1ba2, 0x1ba6, 0x1ba8, 0x1bae, 0x1be6, 0x1be7, 0x1be8, 0x1bea,
   0x1bed, 0x1bee, 0x1bef, 0x1bf4, 0x1c2c, 0x1c34, 0x1c36, 0x1c38, 0x1cd0,
   0x1cd3, 0x1cd4, 0x1ce1, 0x1ce2, 0x1ce9, 0x1ced, 0x1cee, 0x1cf4, 0x1cf5,
   0x1cf8, 0x1cfa, 0x1dc0, 0x1e00, 0x200c, 0x200d, 0x20d0, 0x20f1, 0x2cef,
   0x2cf2, 0x2d7f, 0x2d80, 0x2de0, 0x2e00, 0x302a, 0x3030, 0x3099, 0x309b,
   0xa66f, 0xa673, 0xa674, 0xa67e, 0xa69e, 0xa6a0, 0xa6f0, 0xa6f2, 0xa802,
   0xa803, 0xa806, 0xa807, 0xa80b, 0xa80c, 0xa825, 0xa827, 0xa82c, 0xa82d,
   0xa8c4, 0xa8c6, 0xa8e0, 0xa8f2, 0xa8ff, 0xa900, 0xa926, 0xa92e, 0xa947,
   0xa952, 0xa953, 0xa954, 0xa980, 0xa983, 0xa9b3, 0xa9b4, 0xa9b6, 0xa9ba,
   0xa9bc, 0xa9be, 0xa9c0, 0xa9c1, 0xa9e5, 0xa9e6, 0xaa29, 0xaa2f, 0xaa31,
   0xaa33, 0xaa35, 0xaa37, 0xaa43, 0xaa44, 0xaa4c, 0xaa4d, 0xaa7c, 0xaa7d,
   0xaab0, 0xaab1, 0xaab2, 0xaab5, 0xaab7, 0xaab9, 0xaabe, 0xaac0, 0xaac1,
   0xaac2, 0xaaec, 0xaaee, 0xaaf6, 0xaaf7, 0xabe5, 0xabe6, 0xabe8, 0xabe9,
   0xabed, 0xabee, 0xfb1e, 0xfb1f, 0xfe00, 0xfe10, 0xfe20, 0xfe30, 0xff9e,
   0xffa0, 0x101fd, 0x101fe, 0x102e0, 0x102e1, 0x10376, 0x1037b, 0x10a01, 0x10a04,
   0x10a05, 0x10a07, 0x10a0c, 0x10a10, 0x10a38, 0x10a3b, 0x10a3f, 0x10a40, 0x10ae5,
   0x10ae7, 0x10d24, 0x10d28, 0x10d69, 0x10d6e, 0x10eab, 0x10ead, 0x10efa, 0x10f00,
   0x10f46, 0x10f51, 0x10f82, 0x10f86, 0x11001, 0x11002, 0x11038, 0x11047, 0x11070,
   0x11071, 0x11073, 0x11075, 0x1107f, 0x11082, 0x110b3, 0x110b7, 0x110b9, 0x110bb,
   0x110c2, 0x110c3, 0x11100, 0x11103, 0x11127, 0x1112c, 0x1112d, 0x11135, 0x11173,
   0x11174, 0x11180, 0x11182, 0x111b6, 0x111bf, 0x111c0, 0x111c1, 0x111c9, 0x111cd,
   0x111cf, 0x111d0, 0x1122f, 0x11232, 0x11234, 0x11238, 0x1123e, 0x1123f, 0x11241,
   0x11242, 0x112df, 0x112e0, 0x112e3, 0x112eb, 0x11300, 0x11302, 0x1133b, 0x1133d,
   0x1133e, 0x1133f, 0x11340, 0x11341, 0x1134d, 0x1134e, 0x11357, 0x11358, 0x11366,
   0x1136d, 0x11370, 0x11375, 0x113b8, 0x113b9, 0x113bb, 0x113c1, 0x113c2, 0x113c3,
   0x113c5, 0x113c6, 0x113c7, 0x113ca, 0x113ce, 0x113d1, 0x113d2, 0x113d3, 0x113e1,
   0x113e3, 0x11438, 0x11440, 0x11442, 0x11445, 0x11446, 0x11447, 0x1145e, 0x1145f,
   0x114b0, 0x114b1, 0x114b3, 0x114b9, 0x114ba, 0x114bb, 0x114bd, 0x114be, 0x114bf,
   0x114c1, 0x114c2, 0x114c4, 0x115af, 0x115b0, 0x115b2, 0x115b6, 0x115bc, 0x115be,
   0x115bf, 0x115c1, 0x115dc, 0x115de, 0x11633, 0x1163b, 0x1163d, 0x1163e, 0x1163f,
   0x11641, 0x116ab, 0x116ac, 0x116ad, 0x116ae, 0x116b0, 0x116b8, 0x1171d, 0x1171e,
   0x1171f, 0x11720, 0x11722, 0x11726, 0x11727, 0x1172c, 0x1182f, 0x11838, 0x11839,
   0x1183b, 0x11930, 0x11931, 0x1193b, 0x1193f, 0x11943, 0x11944, 0x119d4, 0x119d8,
   0x119da, 0x119dc, 0x119e0, 0x119e1, 0x11a01, 0x11a0b, 0x11a33, 0x11a39, 0x11a3b,
   0x11a3f, 0x11a47, 0x11a48, 0x11a51, 0x11a57, 0x11a59, 0x11a5c, 0x11a8a, 0x11a97,
   0x11a98, 0x11a9a, 0x11b60, 0x11b61, 0x11b62, 0x11b65, 0x11b66, 0x11b67, 0x11c30,
   0x11c37, 0x11c38, 0x11c3e, 0x11c3f, 0x11c40, 0x11c92, 0x11ca8, 0x11caa, 0x11cb1,
   0x11cb2, 0x11cb4, 0x11cb5, 0x11cb7, 0x11d31, 0x11d37, 0x11d3a, 0x11d3b, 0x11d3c,
   0x11d3e, 0x11d3f, 0x11d46, 0x11d47, 0x11d48, 0x11d90, 0x11d92, 0x11d95, 0x11d96,
   0x11d97, 0x11d98, 0x11ef3, 0x11ef5, 0x11f00, 0x11f02, 0x11f36, 0x11f3b, 0x11f40,
   0x11f43, 0x11f5a, 0x11f5b, 0x13440, 0x13441, 0x13447, 0x13456, 0x1611e, 0x1612a,
   0x1612d, 0x16130, 0x16af0, 0x16af5, 0x16b30, 0x16b37, 0x16f4f, 0x16f50, 0x16f8f,
   0x16f93, 0x16fe4, 0x16fe5, 0x16ff0, 0x16ff2, 0x1bc9d, 0x1bc9f, 0x1cf00, 0x1cf2e,
   0x1cf30, 0x1cf47, 0x1d165, 0x1d16a, 0x1d16d, 0x1d173, 0x1d17b, 0x1d183, 0x1d185,
   0x1d18c, 0x1d1aa, 0x1d1ae, 0x1d242, 0x1d245, 0x1da00, 0x1da37, 0x1da3b, 0x1da6d,
   0x1da75, 0x1da76, 0x1da84, 0x1da85, 0x1da9b, 0x1daa0, 0x1daa1, 0x1dab0, 0x1e000,
   0x1e007, 0x1e008, 0x1e019, 0x1e01b, 0x1e022, 0x1e023, 0x1e025, 0x1e026, 0x1e02b,
   0x1e08f, 0x1e090, 0x1e130, 0x1e137, 0x1e2ae, 0x1e2af, 0x1e2ec, 0x1e2f0, 0x1e4ec,
   0x1e4f0, 0x1e5ee, 0x1e5f0, 0x1e6e3, 0x1e6e4, 0x1e6e6, 0x1e6e7, 0x1e6ee, 0x1e6f0,
   0x1e6f5, 0x1e6f6, 0x1e8d0, 0x1e8d7, 0x1e944, 0x1e94b, 0x1f3fb, 0x1f400, 0xe0020,
   0xe0080, 0xe0100, 0xe01f0]⟩

/-- Marks with a width of their own. -/
def spacingMarkSet : CodeSet :=
  ⟨[0x0903, 0x0904, 0x093b, 0x093c, 0x093e, 0x0941, 0x0949, 0x094d, 0x094e,
   0x0950, 0x0982, 0x0984, 0x09bf, 0x09c1, 0x09c7, 0x09c9, 0x09cb, 0x09cd,
   0x0a03, 0x0a04, 0x0a3e, 0x0a41, 0x0a83, 0x0a84, 0x0abe, 0x0ac1, 0x0ac9,
   0x0aca, 0x0acb, 0x0acd, 0x0b02, 0x0b04, 0x0b40, 0x0b41, 0x0b47, 0x0b49,
   0x0b4b, 0x0b4d, 0x0bbf, 0x0bc0, 0x0bc1, 0x0bc3, 0x0bc6, 0x0bc9, 0x0bca,
   0x0bcd, 0x0c01, 0x0c04, 0x0c41, 0x0c45, 0x0c82, 0x0c84, 0x0cbe, 0x0cbf,
   0x0cc1, 0x0cc2, 0x0cc3, 0x0cc5, 0x0cf3, 0x0cf4, 0x0d02, 0x0d04, 0x0d3f,
   0x0d41, 0x0d46, 0x0d49, 0x0d4a, 0x0d4d, 0x0d82, 0x0d84, 0x0dd0, 0x0dd2,
   0x0dd8, 0x0ddf, 0x0df2, 0x0df4, 0x0e33, 0x0e34, 0x0eb3, 0x0eb4, 0x0f3e,
   0x0f40, 0x0f7f, 0x0f80, 0x1031, 0x1032, 0x103b, 0x103d, 0x1056, 0x1058,
   0x1084, 0x1085, 0x17b6, 0x17b7, 0x17be, 0x17c6, 0x17c7, 0x17c9, 0x1923,
   0x1927, 0x1929, 0x192c, 0x1930, 0x1932, 0x1933, 0x1939, 0x1a19, 0x1a1b,
   0x1a55, 0x1a56, 0x1a57, 0x1a58, 0x1a6d, 0x1a73, 0x1b04, 0x1b05, 0x1b3e,
   0x1b42, 0x1b82, 0x1b83, 0x1ba1, 0x1ba2, 0x1ba6, 0x1ba8, 0x1be7, 0x1be8,
   0x1bea, 0x1bed, 0x1bee, 0x1bef, 0x1c24, 0x1c2c, 0x1c34, 0x1c36, 0x1ce1,
   0x1ce2, 0x1cf7, 0x1cf8, 0xa823, 0xa825, 0xa827, 0xa828, 0xa880, 0xa882,
   0xa8b4, 0xa8c4, 0xa952, 0xa953, 0xa983, 0xa984, 0xa9b4, 0xa9b6, 0xa9ba,
   0xa9bc, 0xa9be, 0xa9c0, 0xaa2f, 0xaa31, 0xaa33, 0xaa35, 0xaa4d, 0xaa4e,
   0xaaeb, 0xaaec, 0xaaee, 0xaaf0, 0xaaf5, 0xaaf6, 0xabe3, 0xabe5, 0xabe6,
   0xabe8, 0xabe9, 0xabeb, 0xabec, 0xabed, 0x11000, 0x11001, 0x11002, 0x11003,
   0x11082, 0x11083, 0x110b0, 0x110b3, 0x110b7, 0x110b9, 0x1112c, 0x1112d, 0x11145,
   0x11147, 0x11182, 0x11183, 0x111b3, 0x111b6, 0x111bf, 0x111c0, 0x111ce, 0x111cf,
   0x1122c, 0x1122f, 0x11232, 0x11234, 0x112e0, 0x112e3, 0x11302, 0x11304, 0x1133f,
   0x11340, 0x11341, 0x11345, 0x11347, 0x11349, 0x1134b, 0x1134d, 0x11362, 0x11364,
   0x113b9, 0x113bb, 0x113ca, 0x113cb, 0x113cc, 0x113ce, 0x11435, 0x11438, 0x11440,
   0x11442, 0x11445, 0x11446, 0x114b1, 0x114b3, 0x114b9, 0x114ba, 0x114bb, 0x114bd,
   0x114be, 0x114bf, 0x114c1, 0x114c2, 0x115b0, 0x115b2, 0x115b8, 0x115bc, 0x115be,
   0x115bf, 0x11630, 0x11633, 0x1163b, 0x1163d, 0x1163e, 0x1163f, 0x116ac, 0x116ad,
   0x116ae, 0x116b0, 0x1171e, 0x1171f, 0x11726, 0x11727, 0x1182c, 0x1182f, 0x11838,
   0x11839, 0x11931, 0x11936, 0x11937, 0x11939, 0x11940, 0x11941, 0x11942, 0x11943,
   0x119d1, 0x119d4, 0x119dc, 0x119e0, 0x119e4, 0x119e5, 0x11a39, 0x11a3a, 0x11a57,
   0x11a59, 0x11a97, 0x11a98, 0x11b61, 0x11b62, 0x11b65, 0x11b66, 0x11b67, 0x11b68,
   0x11c2f, 0x11c30, 0x11c3e, 0x11c3f, 0x11ca9, 0x11caa, 0x11cb1, 0x11cb2, 0x11cb4,
   0x11cb5, 0x11d8a, 0x11d8f, 0x11d93, 0x11d95, 0x11d96, 0x11d97, 0x11ef5, 0x11ef7,
   0x11f03, 0x11f04, 0x11f34, 0x11f36, 0x11f3e, 0x11f40, 0x1612a, 0x1612d, 0x16f51,
   0x16f88]⟩

/-- Characters that begin the cluster of the character after them. -/
def prependSet : CodeSet :=
  ⟨[0x0600, 0x0606, 0x06dd, 0x06de, 0x070f, 0x0710, 0x0890, 0x0892, 0x08e2,
   0x08e3, 0x0d4e, 0x0d4f, 0x110bd, 0x110be, 0x110cd, 0x110ce, 0x111c2, 0x111c4,
   0x113d1, 0x113d2, 0x1193f, 0x11940, 0x11941, 0x11942, 0x11a84, 0x11a8a, 0x11d46,
   0x11d47, 0x11f02, 0x11f03]⟩

/-- The code points with Extended_Pictographic. -/
def pictographSet : CodeSet :=
  ⟨[0x00a9, 0x00aa, 0x00ae, 0x00af, 0x203c, 0x203d, 0x2049, 0x204a, 0x2122,
   0x2123, 0x2139, 0x213a, 0x2194, 0x219a, 0x21a9, 0x21ab, 0x231a, 0x231c,
   0x2328, 0x2329, 0x23cf, 0x23d0, 0x23e9, 0x23f4, 0x23f8, 0x23fb, 0x24c2,
   0x24c3, 0x25aa, 0x25ac, 0x25b6, 0x25b7, 0x25c0, 0x25c1, 0x25fb, 0x25ff,
   0x2600, 0x2605, 0x260e, 0x260f, 0x2611, 0x2612, 0x2614, 0x2616, 0x2618,
   0x2619, 0x261d, 0x261e, 0x2620, 0x2621, 0x2622, 0x2624, 0x2626, 0x2627,
   0x262a, 0x262b, 0x262e, 0x2630, 0x2638, 0x263b, 0x2640, 0x2641, 0x2642,
   0x2643, 0x2648, 0x2654, 0x265f, 0x2661, 0x2663, 0x2664, 0x2665, 0x2667,
   0x2668, 0x2669, 0x267b, 0x267c, 0x267e, 0x2680, 0x2692, 0x2698, 0x2699,
   0x269a, 0x269b, 0x269d, 0x26a0, 0x26a2, 0x26a7, 0x26a8, 0x26aa, 0x26ac,
   0x26b0, 0x26b2, 0x26bd, 0x26bf, 0x26c4, 0x26c6, 0x26c8, 0x26c9, 0x26ce,
   0x26d0, 0x26d1, 0x26d2, 0x26d3, 0x26d5, 0x26e9, 0x26eb, 0x26f0, 0x26f6,
   0x26f7, 0x26fb, 0x26fd, 0x26fe, 0x2702, 0x2703, 0x2705, 0x2706, 0x2708,
   0x270e, 0x270f, 0x2710, 0x2712, 0x2713, 0x2714, 0x2715, 0x2716, 0x2717,
   0x271d, 0x271e, 0x2721, 0x2722, 0x2728, 0x2729, 0x2733, 0x2735, 0x2744,
   0x2745, 0x2747, 0x2748, 0x274c, 0x274d, 0x274e, 0x274f, 0x2753, 0x2756,
   0x2757, 0x2758, 0x2763, 0x2765, 0x2795, 0x2798, 0x27a1, 0x27a2, 0x27b0,
   0x27b1, 0x27bf, 0x27c0, 0x2934, 0x2936, 0x2b05, 0x2b08, 0x2b1b, 0x2b1d,
   0x2b50, 0x2b51, 0x2b55, 0x2b56, 0x3030, 0x3031, 0x303d, 0x303e, 0x3297,
   0x3298, 0x3299, 0x329a, 0x1f004, 0x1f005, 0x1f02c, 0x1f030, 0x1f094, 0x1f0a0,
   0x1f0af, 0x1f0b1, 0x1f0c0, 0x1f0c1, 0x1f0cf, 0x1f0d1, 0x1f0f6, 0x1f100, 0x1f170,
   0x1f172, 0x1f17e, 0x1f180, 0x1f18e, 0x1f18f, 0x1f191, 0x1f19b, 0x1f1ae, 0x1f1e6,
   0x1f201, 0x1f210, 0x1f21a, 0x1f21b, 0x1f22f, 0x1f230, 0x1f232, 0x1f23b, 0x1f23c,
   0x1f240, 0x1f249, 0x1f260, 0x1f266, 0x1f322, 0x1f324, 0x1f394, 0x1f396, 0x1f398,
   0x1f399, 0x1f39c, 0x1f39e, 0x1f3f1, 0x1f3f3, 0x1f3f6, 0x1f3f7, 0x1f3fb, 0x1f400,
   0x1f4fe, 0x1f4ff, 0x1f53e, 0x1f549, 0x1f54f, 0x1f550, 0x1f568, 0x1f56f, 0x1f571,
   0x1f573, 0x1f57b, 0x1f587, 0x1f588, 0x1f58a, 0x1f58e, 0x1f590, 0x1f591, 0x1f595,
   0x1f597, 0x1f5a4, 0x1f5a6, 0x1f5a8, 0x1f5a9, 0x1f5b1, 0x1f5b3, 0x1f5bc, 0x1f5bd,
   0x1f5c2, 0x1f5c5, 0x1f5d1, 0x1f5d4, 0x1f5dc, 0x1f5df, 0x1f5e1, 0x1f5e2, 0x1f5e3,
   0x1f5e4, 0x1f5e8, 0x1f5e9, 0x1f5ef, 0x1f5f0, 0x1f5f3, 0x1f5f4, 0x1f5fa, 0x1f650,
   0x1f680, 0x1f6c6, 0x1f6cb, 0x1f6d3, 0x1f6d5, 0x1f6e6, 0x1f6e9, 0x1f6ea, 0x1f6eb,
   0x1f6f1, 0x1f6f3, 0x1f700, 0x1f7da, 0x1f800, 0x1f80c, 0x1f810, 0x1f848, 0x1f850,
   0x1f85a, 0x1f860, 0x1f888, 0x1f890, 0x1f8ae, 0x1f8b0, 0x1f8bc, 0x1f8c0, 0x1f8c2,
   0x1f8d0, 0x1f8d9, 0x1f900, 0x1f90c, 0x1f93b, 0x1f93c, 0x1f946, 0x1f947, 0x1fa00,
   0x1fa58, 0x1fa60, 0x1fa6e, 0x1fb00, 0x1fc00, 0x1fffe]⟩

/-- Consonants of scripts that write conjuncts. -/
def consonantSet : CodeSet :=
  ⟨[0x0915, 0x093a, 0x0958, 0x0960, 0x0978, 0x0980, 0x0995, 0x09a9, 0x09aa,
   0x09b1, 0x09b2, 0x09b3, 0x09b6, 0x09ba, 0x09dc, 0x09de, 0x09df, 0x09e0,
   0x09f0, 0x09f2, 0x0a95, 0x0aa9, 0x0aaa, 0x0ab1, 0x0ab2, 0x0ab4, 0x0ab5,
   0x0aba, 0x0af9, 0x0afa, 0x0b15, 0x0b29, 0x0b2a, 0x0b31, 0x0b32, 0x0b34,
   0x0b35, 0x0b3a, 0x0b5c, 0x0b5e, 0x0b5f, 0x0b60, 0x0b71, 0x0b72, 0x0c15,
   0x0c29, 0x0c2a, 0x0c3a, 0x0c58, 0x0c5b, 0x0d15, 0x0d3b, 0x1000, 0x102b,
   0x103f, 0x1040, 0x1050, 0x1056, 0x105a, 0x105e, 0x1061, 0x1062, 0x1065,
   0x1067, 0x106e, 0x1071, 0x1075, 0x1082, 0x108e, 0x108f, 0x1780, 0x17b4,
   0x1a20, 0x1a55, 0x1b0b, 0x1b0d, 0x1b13, 0x1b34, 0x1b45, 0x1b4d, 0x1b83,
   0x1ba1, 0x1bae, 0x1bb0, 0x1bbb, 0x1bbe, 0xa989, 0xa98c, 0xa98f, 0xa9b3,
   0xa9e0, 0xa9e5, 0xa9e7, 0xa9f0, 0xa9fa, 0xa9ff, 0xaa60, 0xaa70, 0xaa71,
   0xaa74, 0xaa7a, 0xaa7b, 0xaa7e, 0xaa80, 0xaae0, 0xaaeb, 0xabc0, 0xabdb,
   0x10a00, 0x10a01, 0x10a10, 0x10a14, 0x10a15, 0x10a18, 0x10a19, 0x10a36, 0x11103,
   0x11127, 0x11144, 0x11145, 0x11147, 0x11148, 0x11380, 0x1138a, 0x1138b, 0x1138c,
   0x1138e, 0x1138f, 0x11390, 0x113b6, 0x11900, 0x11907, 0x11909, 0x1190a, 0x1190c,
   0x11914, 0x11915, 0x11917, 0x11918, 0x11930, 0x11a00, 0x11a01, 0x11a0b, 0x11a33,
   0x11a50, 0x11a51, 0x11a5c, 0x11a84, 0x11f04, 0x11f11, 0x11f12, 0x11f34]⟩

/-- The marks that join two consonants into a conjunct. -/
def linkerSet : CodeSet :=
  ⟨[0x094d, 0x094e, 0x09cd, 0x09ce, 0x0acd, 0x0ace, 0x0b4d, 0x0b4e, 0x0c4d,
   0x0c4e, 0x0d4d, 0x0d4e, 0x1039, 0x103a, 0x17d2, 0x17d3, 0x1a60, 0x1a61,
   0x1b44, 0x1b45, 0x1bab, 0x1bac, 0xa9c0, 0xa9c1, 0xaaf6, 0xaaf7, 0x10a3f,
   0x10a40, 0x11133, 0x11134, 0x113d0, 0x113d1, 0x1193e, 0x1193f, 0x11a47, 0x11a48,
   0x11a99, 0x11a9a, 0x11f42, 0x11f43]⟩

/-- Vowel letters that continue a syllable. -/
def vowelSet : CodeSet :=
  ⟨[0x1160, 0x11a8, 0xd7b0, 0xd7c7, 0x16d63, 0x16d64, 0x16d67, 0x16d6b]⟩

/-- The class of the Hangul syllable or letter with this code point. -/
def hangulClass? (n : Nat) : Option ClusterClass :=
  if 0xac00 ≤ n ∧ n < 0xd7a4 then
    some (if (n - 0xac00) % 28 = 0 then .openSyllable else .closedSyllable)
  else if (0x1100 ≤ n ∧ n < 0x1160) ∨ (0xa960 ≤ n ∧ n < 0xa97d) then some .leading
  else if (0x11a8 ≤ n ∧ n < 0x1200) ∨ (0xd7cb ≤ n ∧ n < 0xd7fc) then some .trailing
  else if vowelSet.mem n then some .vowel
  else none

/-- The class of a character. -/
def clusterClass (c : Char) : ClusterClass :=
  let n := c.toNat
  if n = 0x0d then .carriageReturn
  else if n = 0x0a then .lineFeed
  else if n = 0x200d then .joiner
  else if controlSet.mem n then .control
  else if extendSet.mem n then .extend
  else if spacingMarkSet.mem n then .spacingMark
  else if prependSet.mem n then .prepend
  else if 0x1f1e6 ≤ n ∧ n < 0x1f200 then .regional
  else if pictographSet.mem n then .pictograph
  else if consonantSet.mem n then .consonant
  else (hangulClass? n).getD .other

/-- Whether the mark links two consonants. -/
def isLinker (c : Char) : Bool :=
  linkerSet.mem c.toNat

/-- Whether a conjunct goes on through the mark: all extending marks but the non-joiner do. -/
def keepsConjunct (c : Char) : Bool :=
  match clusterClass c with
  | .extend => c.toNat != 0x200c
  | .joiner => true
  | _ => false

end TreeDerivation.Text
