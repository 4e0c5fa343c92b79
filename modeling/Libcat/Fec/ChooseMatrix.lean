import Libcat.Fec.Peeling
import Mathlib.Algebra.Order.Floor.Div

/-!
# ChooseMatrix

The parameters of the check matrix for a message and a block size: the block count, the number of dense
rows, the seeds and the two primes. `InitializeEncoder` and `InitializeDecoder` go on from them.
-/

namespace Libcat.Fec.ChooseMatrix

open NextPrime

section Model

def CAT_MAX_DENSE_ROWS : Nat := 500
def CAT_MAX_EXTRA_ROWS : Nat := 32
def CAT_WIREHAIR_MAX_N : Nat := 64000
def CAT_WIREHAIR_MIN_N : Nat := 2
def CAT_HEAVY_ROWS : Nat := 6

inductive Result where
  | R_WIN
  | R_MORE_BLOCKS
  | R_ERROR
  | R_BAD_DENSE_SEED
  | R_BAD_PEEL_SEED
  | R_BAD_INPUT
  | R_TOO_SMALL
  | R_TOO_LARGE
  | R_NEED_MORE_EXTRA
  | R_OUT_OF_MEMORY
  deriving DecidableEq, Repr

def DENSE_SEEDS : List Nat := [4181, 26667, 4504, 11009, 3438, 14320, 15822, 50870, 4234, 1376, 30232,
  1177, 8576, 3099, 8178, 52837, 773, 5032, 10746, 11964, 1005, 1568, 12581, 2820, 289, 2, 4322, 4097,
  481, 1383, 3765, 166, 3286, 2605, 3101, 851, 465, 1127, 1548, 1771, 793, 1170, 361, 1151, 27, 159,
  460, 14, 267, 478, 109, 70, 279, 427, 17, 39, 20, 5, 34, 15, 22, 37, 24, 23, 18, 0, 30, 25, 4, 19, 9,
  13, 16, 2, 3, 21, 4, 1, 161, 29, 127, 30, 21, 30, 24, 86, 37, 6, 43, 0, 48, 35, 12, 16, 1, 82, 94, 25,
  64, 15, 27, 58, 70, 2, 26, 15, 31, 27, 7, 53, 56, 30, 54, 18, 79, 31, 5, 41, 12]

def SMALL_SEED_MAX : Nat := 261

def SMALL_PEEL_SEEDS : List Nat := [0, 0, 6, 2, 116, 275, 593, 620, 431, 539, 134, 103, 157, 410, 33,
  198, 94, 116, 207, 227, 34, 34, 2, 174, 23, 198, 159, 97, 265, 89, 31, 41, 113, 89, 126, 29, 70, 33,
  56, 140, 163, 109, 124, 161, 135, 163, 19, 6, 158, 27, 107, 22, 122, 129, 142, 27, 8, 125, 0, 63, 108,
  16, 104, 114, 40, 32, 105, 122, 63, 54, 29, 98, 95, 40, 14, 12, 60, 17, 79, 72, 95, 78, 14, 88, 0, 23,
  95, 42, 14, 73, 1, 33, 10, 17, 80, 26, 8, 16, 2, 66, 17, 80, 30, 69, 4, 5, 29, 12, 71, 38, 14, 55, 22,
  72, 2, 43, 67, 41, 44, 6, 37, 1, 50, 32, 44, 38, 29, 20, 48, 58, 38, 52, 27, 59, 27, 38, 42, 27, 43,
  38, 36, 0, 15, 63, 57, 11, 23, 41, 36, 57, 18, 59, 2, 11, 34, 8, 28, 0, 9, 42, 26, 3, 55, 6, 55, 22,
  18, 17, 8, 29, 31, 43, 29, 20, 25, 15, 23, 31, 0, 6, 0, 33, 47, 49, 37, 2, 29, 41, 33, 27, 22, 39, 25,
  6, 29, 24, 10, 45, 18, 45, 19, 17, 3, 30, 3, 18, 8, 44, 43, 4, 30, 38, 28, 2, 40, 26, 19, 4, 37, 45,
  22, 40, 6, 1, 24, 7, 24, 38, 20, 38, 1, 17, 22, 38, 5, 6, 30, 32, 0, 2, 39, 32, 18, 38, 3, 4, 2, 4,
  39, 6, 22, 7, 12, 6, 14, 0, 5, 12, 15, 5, 19, 1]

/-- One bit for each block count, 64 to a word. -/
def EXCEPT_SEEDS : List Nat := [0x0, 0x0, 0x0, 0x0, 0x400200000000000, 0x200000000000000, 0x9000,
  0x440000000000004, 0x100100000000, 0x100000000, 0x2, 0x8020000, 0x404080000200000, 0x200,
  0x82000000000000, 0x800800000200, 0x1000000000000, 0x400000, 0x402, 0x0, 0x1000000000000, 0x0,
  0x1000000, 0x10000000002, 0x0, 0x208000000200001, 0x20000040000000, 0x10000000000, 0x0,
  0x2000000000000, 0x400800000000, 0xa00000000000200, 0x40080000000, 0x800000040000000, 0x104000,
  0x1000000020, 0x410000000000000, 0x10000, 0x4000000, 0x1000000000000000, 0x4000, 0x60000008, 0x40,
  0x2000040000, 0x0, 0x0, 0x200, 0x100000000000, 0x4000000000000, 0x100500, 0x0, 0x200840000010000,
  0x800, 0x400000000, 0x0, 0x800020, 0x1040000000000000, 0x0, 0x0, 0x8000000080000000, 0x4,
  0x2000020000000, 0x0, 0x100000, 0x0, 0x80, 0x10040000, 0x80000000000, 0xc0000004000, 0x0,
  0x8000000008000, 0x1800000080000000, 0x0, 0x10, 0x10000000000, 0x80, 0x0, 0x0, 0xa0000, 0x40000,
  0x200100, 0x2000800000000000, 0x0, 0x0, 0x0, 0x5, 0x400, 0x800000080004006, 0x204000120000,
  0x400008002080, 0x100, 0x0, 0x101000, 0x80000, 0x1000004000000, 0x2, 0x1000000, 0x0, 0x0, 0x0,
  0x20000200008, 0x2000000000, 0x20000020000000, 0x0, 0x100, 0x0, 0x8000000000000, 0x4000200000, 0x0,
  0x800000080001200, 0x4000000000000, 0x1000000000000, 0x400000000400, 0x8, 0x10, 0x810400000808, 0x0,
  0x800000000900, 0x400000000000, 0x8000800000000000, 0x10000000000800, 0x40000, 0x2000000, 0x0,
  0x1000000000, 0x0, 0x208000000, 0x0, 0x1, 0x1000000400000000, 0x4006000000000010, 0x200000000000000,
  0x8000, 0x0, 0x100000, 0x80820000000000, 0x0, 0x100004000000, 0x10000000000000, 0x1000000, 0x8000000,
  0x200, 0x4, 0x80, 0x2000020000002000, 0x0, 0x200000000000000, 0x40000000000004, 0x800000000000, 0x0,
  0x0, 0x1000000000000, 0x800000000800000, 0x40020000000, 0xc0000000040, 0x4000002, 0x0, 0x40010000000,
  0x0, 0x10000000000000, 0x2000000, 0x0, 0x0, 0x100002010000000, 0x102000, 0x0, 0x0, 0x80000000,
  0x60002040800, 0x0, 0x0, 0x4000000000, 0x8000000000000020, 0x100000000000, 0x40, 0x4000000080000000,
  0x0, 0x4000000000000, 0x100, 0x200000004000200, 0x200000000900000, 0x0, 0x2100000000000, 0x10000,
  0x24010020000000, 0x40000000000002, 0x8000000000000000, 0x0, 0x0, 0x4000, 0x20, 0x420000000000000,
  0x0, 0x0, 0x480000000, 0x200000000002000, 0x210000000, 0x80000000001, 0x10000000000000, 0x20000010,
  0x0, 0x0, 0x80008000000, 0x400000000200000, 0x100000000, 0x0, 0x101000080, 0x20020000, 0x800000000,
  0x0, 0x2, 0x800000, 0x1000000000, 0x0, 0x400000000, 0x0, 0x200000000000000, 0x2000000000000000, 0x0,
  0x20000000000000, 0x400004, 0x40000000, 0x2000000004, 0x80000000000, 0x0, 0x2000000000200,
  0x401000000000000, 0x2200002800000000, 0x4000000, 0x40000002000000, 0x10020000, 0x40000160,
  0x400000000020, 0x80000, 0x80000000000, 0x0, 0x0, 0x1, 0x0, 0x200000000200, 0x400000000000, 0x82000,
  0x0, 0x80000000, 0x80010, 0x200000, 0x800000040000000, 0x0, 0x100004000000102, 0x1000100000000,
  0x4000000000, 0x0, 0x400, 0x1000000001000, 0x800000000000000, 0x20000000, 0x1000000000000, 0x0,
  0x800000000, 0x0, 0x40000040, 0x4000000000000, 0x8000, 0x4000800000000400, 0x1100000000, 0x1000000000,
  0x100000000000000, 0x0, 0x2000000008, 0x2002000000, 0x0, 0x8000000, 0x1200, 0x8008000000000000, 0x0,
  0x4000100, 0x102000000000, 0x0, 0x1010000000, 0x20000, 0x0, 0x8000000000, 0x0, 0x20000040000000,
  0x20000000000001, 0x2000000000020000, 0x200000000000000, 0x100010400100840, 0x2000000000200,
  0x1000000000400, 0x200000000000000, 0xa004000000002, 0x4000002004002, 0x0, 0x8000, 0x1000800000808800,
  0x0, 0x0, 0x80000000004, 0x0, 0x0, 0x0, 0x4000000000000, 0x1000000200, 0x2000000000040, 0x40, 0x4000,
  0x100, 0x0, 0x10, 0x0, 0x80000000, 0x40020000000, 0x800000004100000, 0x0, 0x1, 0x40000, 0x400000000,
  0x0, 0x0, 0x80, 0x40, 0xa00000, 0x408000, 0x0, 0x0, 0x1004000008004, 0x4000000000, 0x2000000, 0x4000,
  0x0, 0x0, 0x0, 0x0, 0x20000, 0x100000010000400, 0x8200000, 0x801000000000, 0x0, 0x0, 0x4000000,
  0x4020000, 0x20000000000, 0x1200800200000000, 0x0, 0x200000000080, 0x0, 0x8000088000000000,
  0x20000000, 0x0, 0x0, 0x3, 0x8000000000100, 0x80000000100, 0x800000200004, 0x8008000000, 0x0,
  0x2000200100000, 0x10000000000, 0x0, 0x802400, 0x400010000000, 0x10000000, 0x1, 0x4011, 0x0,
  0x400000080000, 0x8100000, 0x0, 0x2060000000000000, 0x100000000000000, 0x0, 0x200000000,
  0x600000080000, 0x400080, 0x10808000, 0x2, 0x10000000000, 0x0, 0x2000, 0x10, 0x80001000000,
  0x200000000, 0x100, 0x40020800000, 0x8100000020, 0x200, 0x2001000, 0x0, 0x0, 0x400008,
  0xa000040400080000, 0x0, 0x20400040000008, 0x2000000000000000, 0x0, 0x100000000000, 0x400000000000000,
  0x1000000000000000, 0x0, 0x0, 0x0, 0x0, 0x20000010000000, 0x0, 0x400000000000, 0x0, 0x0,
  0x80000000000000, 0x0, 0x0, 0x40, 0x0, 0x1000000400000000, 0x10800000000008, 0x1000800000000,
  0x100000001000000, 0x80, 0x0, 0x4040000020000, 0x10000, 0x0, 0x0, 0x200000000000, 0x108000,
  0x800000081000001, 0x8000200000000, 0x4000000000000000, 0x0, 0x4000000000, 0x460000000002000,
  0x8000000000000000, 0x0, 0x2000000002, 0x400000000, 0x10001, 0x0, 0x800000200000000, 0x4,
  0x80000000010100, 0x4000000000000000, 0x0, 0x1000000, 0x140000000000000, 0x800000, 0x8000000, 0x0,
  0x1000000000000000, 0x0, 0x1000000, 0x2000, 0x10000000000000, 0x0, 0x0, 0x40000, 0x80000001,
  0xc020000000800, 0x81000, 0x804000000000000, 0x800, 0x4010000000080, 0x18000000000, 0x0,
  0x8000000020000000, 0x20000000000, 0x400000810002000, 0x40000000200, 0x0, 0x4000002000000040, 0x0,
  0x401004000000002, 0x400000100001, 0x100000000, 0x10000000000, 0x800, 0x10000000, 0x0,
  0x8000000001800000, 0x300000108000, 0x2000000000, 0x200000000021, 0x280, 0x80100002000000,
  0x8000080000, 0x80000000, 0x0, 0x8000000000000020, 0x0, 0x40000000000, 0x10000000000, 0x20000000, 0x0,
  0x0, 0x400000000000, 0x4000000000000, 0x2000000000000, 0x200000, 0x0, 0x4000001000000, 0x20040000,
  0x4020000000000, 0x0, 0x8000020000000000, 0x20000000, 0x100000, 0x1, 0x800000000, 0x4008000000, 0x0,
  0x0, 0x10000000000000, 0x2800, 0x1000000000000020, 0x0, 0x40000, 0x0, 0x0, 0x0, 0x4000, 0x80000009,
  0x0, 0x608000100, 0x8000000000000000, 0x1000000002000820, 0x0, 0x0, 0x1000, 0x800, 0x20000020200000,
  0x400000000, 0x0, 0x10000000000000, 0x0, 0x20000, 0x0, 0x0, 0x40000002000, 0x2000000000, 0x400000,
  0x10000000000000, 0x400000000, 0x400, 0x2000, 0x200000000020, 0x0, 0x0, 0x4000, 0x8000002000,
  0x280000000000, 0x2000000000, 0x100, 0x400000000, 0x8000000020000, 0x0, 0x100000, 0x0, 0x2000000000,
  0x1210, 0x40000000010000, 0x20, 0x8000000002000, 0x1200, 0x80000000000008, 0xc0000, 0x0, 0x0,
  0x2000020000, 0x20000000, 0x0, 0x0, 0x80040, 0x0, 0x8000000280001, 0x0, 0x8000002, 0x0,
  0x400000000000, 0x2000000000000000, 0x1000020000, 0x0, 0x0, 0x0, 0x1000000000000000,
  0x800010000000000, 0x0, 0x0, 0x20, 0x0, 0x0, 0x1000, 0x1000000000020, 0x0, 0x4, 0x8000000000, 0x80081,
  0x40000000000020, 0x0, 0x2200000000000000, 0x4040040000040, 0x400000000000002, 0x24, 0x0,
  0x8000400000000, 0x0, 0x0, 0x0, 0x100000000000000, 0x0, 0x6000400000004, 0x2000000000000000, 0x0, 0x1,
  0x440000000c00, 0x8000000, 0x400000, 0x0, 0x400000000, 0x0, 0x0, 0x8000000000, 0x2000000800000000,
  0x1040000000000000, 0x100000000000, 0x0, 0x100000000, 0x200, 0x10010000000000, 0x10000000, 0x2000,
  0x200000080000, 0x10200002000000, 0x8, 0x800000000, 0x20000000000000, 0x100000000000000,
  0x80400000004, 0x0, 0x200000000, 0x1000, 0x40000, 0x140000008000000, 0x0, 0x100000000000, 0x800000000,
  0x0, 0x0, 0x800000000000000, 0x4000010000000, 0x4000000000000, 0x8000, 0x8000000001200,
  0x100001000000200, 0x1, 0x100000000020, 0x0, 0x0, 0x0, 0x10000000002000, 0x0, 0x0, 0x40001000000000,
  0x100000021, 0x0, 0x800100000100100, 0x8000, 0x80000000, 0x40400000002, 0x0, 0x200000000040008, 0x0,
  0x0, 0x2000000000, 0x20000000, 0x80, 0x10, 0x0, 0x0, 0x80000000000, 0x2040000000000000,
  0x40000000000000, 0x0, 0x20004000000000, 0x0, 0x800000004000000, 0x8000000400000000, 0x80100000000000,
  0x8000020000, 0x100000000000020, 0x8800000, 0x1008000000040110, 0x2000000000000000, 0x0, 0x100,
  0x10000000, 0x1000004000, 0x200000000800, 0x4000000000000000, 0x0, 0x8000004002000,
  0x4080000000000000, 0x1200000800000000, 0x9000000200000000, 0x0, 0x0, 0x0, 0x40000000, 0x0,
  0x400000000000, 0x2006002000000, 0x100000040000000, 0x200020040000, 0x2000000000, 0x2000000000008,
  0x0, 0x204040040, 0x10080, 0x2000000000, 0x100000, 0x400000000000, 0x100000000000, 0x500, 0x200002,
  0x2000000000, 0x0, 0x10000000000000, 0x200000, 0x1000000000000000, 0x100000000000, 0x80000000000000,
  0x1000, 0x0, 0x40000000000, 0x2000, 0x200000000000, 0x4000000000, 0x10000000, 0x0, 0x1004000000000040,
  0x4000000000, 0x200000a, 0x2000000, 0x400040000200000, 0x800001000100, 0x0, 0x20800000000000,
  0x4000100000100000, 0x0, 0x400, 0x80000000000, 0x40002000, 0x4000000000082000, 0x2000000000000, 0x0,
  0x200, 0x200000000000, 0x1, 0x1000000000400000, 0x20008000, 0x80000000000800, 0x100, 0x20000000000000,
  0x10000000000000, 0x22000, 0x40100, 0x200000000000800, 0x84000000000, 0x1000000000000, 0x0, 0x2000000,
  0x0, 0x0, 0x100000000, 0x100240000080, 0x200010000, 0x408000000000, 0x1000000000000000,
  0x40000000b000000, 0x0, 0x0, 0x20000000040, 0x1, 0x0, 0x20000280000, 0x20000, 0x200000000,
  0x1000800000000, 0x0, 0x0, 0x400, 0x8, 0x0, 0x0, 0x40000000, 0x0, 0x8400000000000, 0x40180400,
  0x2000000, 0x0, 0x0, 0x10000000000000, 0x8000000, 0x80800, 0x10000000000000, 0x2000000c00,
  0x1000000000800, 0x0, 0x10000000, 0x0, 0x400000000000010, 0x20020008030000, 0x100000002008,
  0x20000000, 0x0, 0x8000000000010, 0x8000000000, 0x1000, 0x4000000000000, 0x0, 0x4000000,
  0x11000000000, 0x100000000, 0x20, 0x0, 0x4, 0x408, 0x0, 0x0, 0x0, 0x800040000100000,
  0x402000000000000, 0x20, 0x20000000000000, 0x100008000, 0x400000080, 0x800000100800000,
  0x4000000002000000, 0x2000000000100, 0x40000200000, 0x140000000080, 0x4000000000000000,
  0x200000000000, 0x0, 0x4008000000, 0x810000000, 0x800400000020002, 0x0, 0x40, 0x8900, 0x20000,
  0x200000000, 0x800000200080028, 0x0, 0x20040000000000, 0x20000000000000, 0x8000000, 0x10000010000000,
  0x0, 0x100040, 0x2002800000400000, 0x400000000000000, 0x10000000000000, 0x0, 0x4000008, 0x0,
  0x40001000, 0x8000000000040000, 0x0, 0x1000000000800, 0x0, 0x400000, 0x20000, 0x0, 0x0,
  0x400000080000, 0x40400080000000, 0x4000000000000000, 0x80000000, 0x0, 0x40800000004000, 0x10000000,
  0x0, 0x0, 0x0, 0x20000000100000, 0x0, 0x80000000000000, 0x200000000, 0x0, 0x0, 0x8000, 0x200000000000,
  0x1000000003000000, 0x30000000, 0x1, 0x0, 0x10000, 0x0, 0x20000000040, 0x1000004000001, 0x800000000,
  0x800001000000000, 0x80000000, 0x0, 0x20200, 0x8000000000000, 0x4, 0x0, 0x800800000008000,
  0x1000000000, 0x1000000, 0x40000000000008, 0x0, 0x4000, 0x1000008000, 0x400000000, 0x20000000,
  0x1090000000, 0x4000000000, 0x400000000, 0x40000001, 0x0, 0x0, 0x2000000000004, 0x4010000000020,
  0x2020000000, 0x0, 0x8001000000000, 0x2000000, 0x200000, 0x20, 0x0, 0x80000000000, 0x0, 0x0,
  0x1000000000000, 0x0, 0x800000000, 0x4200000000, 0x220, 0x1000000000, 0x80000000, 0x1000,
  0x20000000800000, 0x0, 0x1000000, 0x20008, 0x10000000, 0x0, 0x3000000000, 0x4000004000,
  0x102000000000000, 0x10000200000, 0x80002000000, 0x0, 0x10000100000a000, 0x1000000000, 0x0, 0x0,
  0x400000, 0x8000000, 0x0, 0x0, 0x2, 0x4000000000000, 0x100000000000000, 0x800000000000, 0x40000000000,
  0x0, 0x400400000081, 0x2000408000000, 0x80200000000100, 0x40000000, 0x8000000000000, 0x0, 0x0,
  0x8100000000000800, 0x2000000, 0x20000000080, 0x0, 0x0, 0x180010000000, 0x10001000000000, 0x4,
  0x2080000000, 0x20000000, 0x0, 0x1000000, 0x0, 0x0, 0x80000000000, 0x100000000008, 0x0, 0x0,
  0x81000500, 0x100000000, 0x40000001000000, 0x10000000, 0x8, 0x400010001000000, 0x400000000]

/-- The lists of the peeling solver. -/
structure Lists where
  peel_head_rows : Option Nat
  peel_tail_rows : Option Nat
  defer_head_rows : Option Nat
  deriving DecidableEq, Repr, Inhabited

structure Codec where
  block_bytes : Nat
  block_count : Nat
  block_next_prime : Nat
  extra_count : Nat
  p_seed : Nat
  d_seed : Nat
  row_count : Nat
  mix_count : Nat
  mix_next_prime : Nat
  dense_count : Nat
  input_final_bytes : Nat
  output_final_bytes : Nat
  all_original : Bool
  lists : Lists
  deriving DecidableEq, Repr, Inhabited

/-- The number of dense rows before it is rounded. -/
def denseCount (block_count : Nat) : Nat :=
  if block_count < 256 then
    if block_count = 2 then 2
    else if block_count = 3 then 6
    else 10 + squareRoot16 block_count / 2 + block_count / 50
  else if block_count ≤ 4096 then 11 + squareRoot16 block_count + block_count / 300
  else if block_count ≤ 32768 then 22 + block_count / 100
  else if block_count ≤ 44000 then 26 + block_count / 114
  else if block_count ≤ 52500 then 74 + block_count / 128
  else 880 - block_count / 128

/-- Round up to the next `D` with `D` mod 4 = 2. -/
def roundDense (dense_count : Nat) : Nat :=
  match dense_count % 4 with
  | 0 => dense_count + 2
  | 1 => dense_count + 1
  | 2 => dense_count
  | _ => dense_count + 3

/-- The dense seed, or `none` for `R_BAD_DENSE_SEED`. -/
def denseSeed (dense_count : Nat) : Option Nat :=
  if dense_count < 14 then
    match dense_count with
    | 2 => some 0
    | 6 => some 67
    | _ => none
  else if dense_count > 486 then none
  else some (DENSE_SEEDS.getD ((dense_count - 14) / 4) 0)

/-- The block counts that use the tertiary backup seed. -/
def TERTIARY : List Nat := [1473, 2653, 6421, 6835, 8091, 9462, 9712, 14853, 19428, 22635, 24015, 31954,
  32914, 36023, 39741, 41612, 41797, 51792, 54223, 54403, 54959]

/-- The peel seed. For 64000 blocks the word read is `behind` the table. -/
def peelSeed (behind block_count : Nat) : Nat :=
  if block_count ≤ SMALL_SEED_MAX then SMALL_PEEL_SEEDS.getD block_count 0
  else if (EXCEPT_SEEDS.getD (block_count >>> 6) behind).testBit (block_count % 64) then
    if block_count ∈ TERTIARY then 1 else 0
  else block_count

/-- The rest of `ChooseMatrix`, for a valid block count. -/
def choose (fuel behind : Nat) (c : Codec) : Option (Result × Codec) :=
  let dense_count := roundDense (denseCount c.block_count)
  match denseSeed dense_count with
  | none => some (.R_BAD_DENSE_SEED, c)
  | some d_seed =>
    let mix_count := dense_count + CAT_HEAVY_ROWS
    (nextPrime16 fuel mix_count).map fun mix_next_prime =>
      (.R_WIN, { c with d_seed, dense_count, p_seed := peelSeed behind c.block_count, mix_count,
                        mix_next_prime, lists := ⟨none, none, none⟩ })

/-- `ChooseMatrix`. The sum is a `u32`, the block count is stored as a `u16`. -/
def chooseMatrix (fuel behind : Nat) (message_bytes block_bytes : Int) (c : Codec) :
    Option (Result × Codec) :=
  if message_bytes < 1 ∨ block_bytes < 1 then some (.R_BAD_INPUT, c)
  else
    let block_bytes := block_bytes.toNat
    let block_count := (message_bytes.toNat + block_bytes - 1) % 0x100000000 / block_bytes % 0x10000
    (nextPrime16 fuel block_count).bind fun block_next_prime =>
      let c := { c with block_bytes, block_count, block_next_prime }
      if block_count < CAT_WIREHAIR_MIN_N then some (.R_TOO_SMALL, c)
      else if block_count > CAT_WIREHAIR_MAX_N then some (.R_TOO_LARGE, c)
      else choose fuel behind c

def partialFinalBytes (message_bytes : Int) (c : Codec) : Nat :=
  let partial_final_bytes := message_bytes.toNat % c.block_bytes
  if partial_final_bytes ≤ 0 then c.block_bytes else partial_final_bytes

/-- `InitializeEncoder`. Whether there is memory is up to the heap. -/
def initializeEncoder (fuel behind : Nat) (allocateWorkspace : Codec → Bool)
    (message_bytes block_bytes : Int) (c : Codec) : Option (Result × Codec) :=
  (chooseMatrix fuel behind message_bytes block_bytes c).map fun (r, c) =>
    if r = .R_WIN then
      let c := { c with input_final_bytes := partialFinalBytes message_bytes c
                        output_final_bytes := c.block_bytes, extra_count := 0 }
      if allocateWorkspace c then (r, c) else (.R_OUT_OF_MEMORY, c)
    else (r, c)

/-- `BeginEncode`. Of what is modelled here `EncodeFeed` writes the lists only. -/
def beginEncode (fuel behind : Nat) (allocateWorkspace : Codec → Bool)
    (encodeFeed : Codec → Result × Lists) (message_bytes block_bytes : Int) (c : Codec) :
    Option (Result × Codec) :=
  (initializeEncoder fuel behind allocateWorkspace message_bytes block_bytes c).map fun (r, c) =>
    if r = .R_WIN then ((encodeFeed c).1, { c with lists := (encodeFeed c).2 }) else (r, c)

/-- `InitializeDecoder`. -/
def initializeDecoder (fuel behind : Nat) (allocateInput allocateWorkspace : Codec → Bool)
    (message_bytes block_bytes : Int) (c : Codec) : Option (Result × Codec) :=
  (chooseMatrix fuel behind message_bytes block_bytes c).map fun (r, c) =>
    if r = .R_WIN then
      let c := { c with row_count := 0, output_final_bytes := partialFinalBytes message_bytes c
                        input_final_bytes := c.block_bytes, extra_count := CAT_MAX_EXTRA_ROWS
                        all_original := true }
      if allocateInput c && allocateWorkspace c then (r, c) else (.R_OUT_OF_MEMORY, c)
    else (r, c)

/-- `BeginDecode`, without the pointer to the output. -/
def beginDecode (fuel behind : Nat) (allocateInput allocateWorkspace : Codec → Bool)
    (message_bytes block_bytes : Int) (c : Codec) : Option (Result × Codec) :=
  initializeDecoder fuel behind allocateInput allocateWorkspace message_bytes block_bytes c

end Model

section Dense

variable {n : Nat}

theorem squareRoot16_le {k : Nat} (hn : n < 0x10000) (hk : n < k ^ 2) : squareRoot16 n < k :=
  lt_of_pow_lt_pow_left₀ 2 (Nat.zero_le k) ((squareRoot16_spec hn).1.trans_lt hk)

theorem le_squareRoot16 {k : Nat} (hn : n < 0x10000) (hk : k ^ 2 ≤ n) : k ≤ squareRoot16 n :=
  Nat.lt_succ_iff.mp (lt_of_pow_lt_pow_left₀ 2 (Nat.zero_le _) (hk.trans_lt (squareRoot16_spec hn).2))

theorem roundDense_spec (d : Nat) : d ≤ roundDense d ∧ roundDense d ≤ d + 3 ∧ roundDense d % 4 = 2 := by
  unfold roundDense
  have hlt : d % 4 < 4 := Nat.mod_lt d (by omega)
  split
  · omega
  · omega
  · omega
  · next h0 h1 h2 =>
    have : d % 4 ≠ 0 := h0
    have : d % 4 ≠ 1 := h1
    have : d % 4 ≠ 2 := h2
    omega

/-- The two counts with a seed of their own, and the range of the table. -/
theorem denseCount_range (hmin : 2 ≤ n) (hmax : n ≤ 64000) :
    denseCount n = 2 ∨ denseCount n = 6 ∨ 11 ≤ denseCount n ∧ denseCount n ≤ 484 := by
  unfold denseCount
  by_cases h256 : n < 256
  · rw [if_pos h256]
    by_cases h2 : n = 2
    · exact .inl (if_pos h2)
    · rw [if_neg h2]
      by_cases h3 : n = 3
      · exact .inr (.inl (if_pos h3))
      · rw [if_neg h3]
        have hlo : 2 ≤ squareRoot16 n := le_squareRoot16 (by omega) (by omega)
        have hhi : squareRoot16 n < 16 := squareRoot16_le (by omega) (by omega)
        omega
  · rw [if_neg h256]
    right; right
    by_cases h4096 : n ≤ 4096
    · rw [if_pos h4096]
      have hhi : squareRoot16 n < 65 := squareRoot16_le (by omega) (by omega)
      omega
    · rw [if_neg h4096]
      split_ifs <;> omega

/-- Every valid block count has a dense seed. -/
theorem dense_spec (hmin : 2 ≤ n) (hmax : n ≤ 64000) :
    ∃ d_seed, denseSeed (roundDense (denseCount n)) = some d_seed ∧
      2 ≤ roundDense (denseCount n) ∧ roundDense (denseCount n) ≤ 486 := by
  obtain ⟨hge, hle, hmod⟩ := roundDense_spec (denseCount n)
  rcases denseCount_range hmin hmax with h2 | h6 | ⟨hlo, hhi⟩
  · rw [h2]
    exact ⟨0, rfl, by decide, by decide⟩
  · rw [h6]
    exact ⟨67, rfl, by decide, by decide⟩
  · -- 484 is the largest count and leaves no remainder, so that it rounds to 486
    have h14 : ¬roundDense (denseCount n) < 14 := by omega
    have h486 : ¬roundDense (denseCount n) > 486 := by omega
    refine ⟨DENSE_SEEDS.getD ((roundDense (denseCount n) - 14) / 4) 0, ?_, by omega, by omega⟩
    unfold denseSeed
    rw [if_neg h14, if_neg h486]

end Dense

section Spec

variable {behind : Nat}

/-- What `ChooseMatrix` leaves with `R_WIN`. -/
structure Chosen (c : Codec) : Prop where
  min_le : CAT_WIREHAIR_MIN_N ≤ c.block_count
  le_max : c.block_count ≤ CAT_WIREHAIR_MAX_N
  next_prime : nextPrime16 0x10000 c.block_count = some c.block_next_prime
  prime : c.block_next_prime.Prime
  dense_le : c.dense_count ≤ CAT_MAX_DENSE_ROWS
  mix_eq : c.mix_count = c.dense_count + CAT_HEAVY_ROWS
  mix_prime : c.mix_next_prime.Prime
  mix_le : c.mix_count ≤ c.mix_next_prime

/-- The check matrix of the peeling solver. -/
def Chosen.checkMatrix {c : Codec} (h : Chosen c) : Peeling.CheckMatrix where
  block_count := c.block_count
  block_next_prime := c.block_next_prime
  mix_count := c.mix_count
  p_seed := BitVec.ofNat 32 c.p_seed
  min_le := h.min_le
  le_max := h.le_max
  next_prime := h.next_prime

theorem choose_spec {c : Codec} (hmin : 2 ≤ c.block_count) (hmax : c.block_count ≤ 64000)
    (hprime : ∀ fuel, 0x10000 ≤ fuel → nextPrime16 fuel c.block_count = some c.block_next_prime) :
    ∃ c', (∀ fuel, 0x10000 ≤ fuel → choose fuel behind c = some (.R_WIN, c')) ∧
      c'.block_bytes = c.block_bytes ∧ c'.block_count = c.block_count ∧ Chosen c' := by
  obtain ⟨d_seed, hseed, hlo, hhi⟩ := dense_spec hmin hmax
  obtain ⟨q, hrun, hq, hge, -⟩ := nextPrime16_spec
    (show 2 ≤ roundDense (denseCount c.block_count) + CAT_HEAVY_ROWS by unfold CAT_HEAVY_ROWS; omega)
    (by unfold CAT_HEAVY_ROWS; omega)
  obtain ⟨p, hblock, hp, -, -⟩ := nextPrime16_spec hmin hmax
  have heq : p = c.block_next_prime :=
    Option.some.inj ((hblock 0x10000 (by omega)).symm.trans (hprime 0x10000 le_rfl))
  refine ⟨{ c with d_seed, dense_count := roundDense (denseCount c.block_count)
                   p_seed := peelSeed behind c.block_count
                   mix_count := roundDense (denseCount c.block_count) + CAT_HEAVY_ROWS
                   mix_next_prime := q, lists := ⟨none, none, none⟩ }, fun fuel hfuel => ?_, rfl, rfl, ?_⟩
  · unfold choose
    simp only [hseed, hrun fuel (by omega)]
    rfl
  · have hdense : roundDense (denseCount c.block_count) ≤ CAT_MAX_DENSE_ROWS := hhi.trans (by decide)
    exact ⟨hmin, hmax, hprime 0x10000 le_rfl, heq ▸ hp, hdense, rfl, hq, hge⟩

/-- The result by the stored block count. -/
def verdict (block_count : Nat) : Result :=
  if block_count < CAT_WIREHAIR_MIN_N then .R_TOO_SMALL
  else if block_count > CAT_WIREHAIR_MAX_N then .R_TOO_LARGE
  else .R_WIN

variable {m b : Nat}

variable (behind) in
/-- `ChooseMatrix` returns, and goes by the low 16 bits of the quotient. -/
theorem chooseMatrix_spec (hm : 1 ≤ m) (hb : 1 ≤ b) (hm' : m ≤ 0x7fffffff) (hb' : b ≤ 0x7fffffff)
    (c : Codec) : ∃ c', (∀ fuel, 0x10000 ≤ fuel →
        chooseMatrix fuel behind m b c = some (verdict ((m ⌈/⌉ b) % 0x10000), c')) ∧
      c'.block_bytes = b ∧ c'.block_count = (m ⌈/⌉ b) % 0x10000 ∧
      (verdict ((m ⌈/⌉ b) % 0x10000) = .R_WIN → Chosen c') := by
  have hsum : (m + b - 1) % 0x100000000 = m + b - 1 := Nat.mod_eq_of_lt (by omega)
  have hquot : (m + b - 1) / b = m ⌈/⌉ b := (Nat.ceilDiv_eq_add_pred_div m b).symm
  set n := (m ⌈/⌉ b) % 0x10000 with hn
  obtain ⟨p, hp⟩ := nextPrime16_ends (show n < 0x10000 from Nat.mod_lt _ (by omega))
  set c₀ : Codec := { c with block_bytes := b, block_count := n, block_next_prime := p } with hc₀
  have hrun : ∀ fuel, 0x10000 ≤ fuel → chooseMatrix fuel behind m b c =
      if n < CAT_WIREHAIR_MIN_N then some (.R_TOO_SMALL, c₀)
      else if n > CAT_WIREHAIR_MAX_N then some (.R_TOO_LARGE, c₀) else choose fuel behind c₀ := by
    intro fuel hfuel
    unfold chooseMatrix
    rw [if_neg (by omega)]
    simp only [Int.toNat_natCast, hsum, hquot, ← hn, hp fuel hfuel, Option.bind_some]
    rfl
  unfold verdict
  by_cases hsmall : n < CAT_WIREHAIR_MIN_N
  · refine ⟨c₀, fun fuel hfuel => ?_, rfl, rfl, fun h => ?_⟩
    · rw [hrun fuel hfuel, if_pos hsmall, if_pos hsmall]
    · rw [if_pos hsmall] at h
      cases h
  · by_cases hlarge : n > CAT_WIREHAIR_MAX_N
    · refine ⟨c₀, fun fuel hfuel => ?_, rfl, rfl, fun h => ?_⟩
      · rw [hrun fuel hfuel, if_neg hsmall, if_pos hlarge, if_neg hsmall, if_pos hlarge]
      · rw [if_neg hsmall, if_pos hlarge] at h
        cases h
    · obtain ⟨c', hchoose, hbytes, hcount, hchosen⟩ := choose_spec (c := c₀) (Nat.not_lt.mp hsmall)
        (Nat.not_lt.mp hlarge) hp
      refine ⟨c', fun fuel hfuel => ?_, hbytes, hcount, fun _ => hchosen⟩
      rw [hrun fuel hfuel, if_neg hsmall, if_neg hlarge, if_neg hsmall, if_neg hlarge]
      exact hchoose fuel hfuel

/-- What the block count check is to make of a message of `m` bytes in blocks of `b`. -/
structure Validated (m b : Nat) (r : Result) (c : Codec) : Prop where
  too_large : CAT_WIREHAIR_MAX_N < m ⌈/⌉ b → r = .R_TOO_LARGE
  too_small : m ⌈/⌉ b < CAT_WIREHAIR_MIN_N → r = .R_TOO_SMALL
  win : CAT_WIREHAIR_MIN_N ≤ m ⌈/⌉ b → m ⌈/⌉ b ≤ CAT_WIREHAIR_MAX_N → r = .R_WIN →
    c.block_count = m ⌈/⌉ b ∧ m ≤ c.block_count * b ∧ c.dense_count ≤ CAT_MAX_DENSE_ROWS

/-- The call returns, with a result that is right. -/
def Validates (m b : Nat) (run : Nat → Option (Result × Codec)) : Prop :=
  ∃ r c, (∀ fuel, 0x10000 ≤ fuel → run fuel = some (r, c)) ∧ Validated m b r c

/-- The low 16 bits of the quotient lead to the verdict that the quotient should have. -/
def Fits16 (q : Nat) : Prop := q ≤ CAT_WIREHAIR_MAX_N ∨ CAT_WIREHAIR_MAX_N < q % 0x10000

theorem verdict_small {q : Nat} (h : q < CAT_WIREHAIR_MIN_N) : verdict (q % 0x10000) = .R_TOO_SMALL := by
  unfold CAT_WIREHAIR_MIN_N at h
  unfold verdict
  rw [Nat.mod_eq_of_lt (by omega)]
  exact if_pos h

theorem verdict_large {q : Nat} (h : CAT_WIREHAIR_MAX_N < q) :
    verdict (q % 0x10000) = .R_TOO_LARGE ↔ Fits16 q := by
  have hmin : CAT_WIREHAIR_MIN_N = 2 := rfl
  have hmax : CAT_WIREHAIR_MAX_N = 64000 := rfl
  unfold verdict Fits16
  constructor
  · intro hv
    by_contra hfits
    rw [if_neg (show ¬q % 0x10000 > CAT_WIREHAIR_MAX_N by omega)] at hv
    split at hv <;> cases hv
  · intro hfits
    rw [if_neg (by omega), if_pos (by omega)]

/-- A message whose result is `R_WIN` is in its blocks. -/
theorem Chosen.validated {c : Codec} (h : Chosen c) (hb : 1 ≤ b)
    (hcount : c.block_count = (m ⌈/⌉ b) % 0x10000) (hle : m ⌈/⌉ b ≤ CAT_WIREHAIR_MAX_N) :
    c.block_count = m ⌈/⌉ b ∧ m ≤ c.block_count * b ∧ c.dense_count ≤ CAT_MAX_DENSE_ROWS := by
  have hmod : (m ⌈/⌉ b) % 0x10000 = m ⌈/⌉ b :=
    Nat.mod_eq_of_lt (hle.trans_lt (by decide))
  have hcover : m ≤ b * (m ⌈/⌉ b) := (ceilDiv_le_iff_le_mul hb).mp le_rfl
  rw [hmod] at hcount
  exact ⟨hcount, by rwa [hcount, Nat.mul_comm], h.dense_le⟩

variable (behind) in
/-- Every valid number of blocks gets its parameters. -/
theorem chooseMatrix_wins (hm : 1 ≤ m) (hb : 1 ≤ b) (hm' : m ≤ 0x7fffffff) (hb' : b ≤ 0x7fffffff)
    (hmin : CAT_WIREHAIR_MIN_N ≤ m ⌈/⌉ b) (hmax : m ⌈/⌉ b ≤ CAT_WIREHAIR_MAX_N) (c : Codec) :
    ∃ c', (∀ fuel, 0x10000 ≤ fuel → chooseMatrix fuel behind m b c = some (.R_WIN, c')) ∧
      c'.block_bytes = b ∧ c'.block_count = m ⌈/⌉ b ∧ Chosen c' := by
  obtain ⟨c', hrun, hbytes, hcount, hchosen⟩ := chooseMatrix_spec behind hm hb hm' hb' c
  have hmod : (m ⌈/⌉ b) % 0x10000 = m ⌈/⌉ b := Nat.mod_eq_of_lt (hmax.trans_lt (by decide))
  have hwin : verdict (m ⌈/⌉ b) = .R_WIN := by
    unfold verdict
    rw [if_neg (Nat.not_lt.mpr hmin), if_neg (Nat.not_lt.mpr hmax)]
  rw [hmod] at hrun hcount hchosen
  exact ⟨c', hwin ▸ hrun, hbytes, hcount, hchosen hwin⟩

variable (behind) in
theorem chooseMatrix_validates (hm : 1 ≤ m) (hb : 1 ≤ b) (hm' : m ≤ 0x7fffffff)
    (hb' : b ≤ 0x7fffffff) (c : Codec) :
    Validates m b (fun fuel => chooseMatrix fuel behind m b c) ↔ Fits16 (m ⌈/⌉ b) := by
  obtain ⟨c', hrun, -, hcount, hchosen⟩ := chooseMatrix_spec behind hm hb hm' hb' c
  constructor
  · rintro ⟨r, c'', hrun', hvalid⟩
    have heq := (hrun 0x10000 le_rfl).symm.trans (hrun' 0x10000 le_rfl)
    obtain ⟨rfl, rfl⟩ := Prod.mk.inj (Option.some.inj heq)
    by_cases hle : m ⌈/⌉ b ≤ CAT_WIREHAIR_MAX_N
    · exact .inl hle
    · exact (verdict_large (Nat.not_le.mp hle)).mp (hvalid.too_large (Nat.not_le.mp hle))
  · intro hfits
    exact ⟨_, c', hrun, fun hlarge => (verdict_large hlarge).mpr hfits, verdict_small,
      fun _ hmax hwin => (hchosen hwin).validated hb hcount hmax⟩

/-- What goes on from `R_WIN` without touching the counts, and passes the errors on. -/
theorem Validates.map {run : Nat → Option (Result × Codec)} (h : Validates m b run)
    (f : Result × Codec → Result × Codec) (herr : ∀ r c, r ≠ .R_WIN → f (r, c) = (r, c))
    (hkeep : ∀ c, (f (.R_WIN, c)).2.block_count = c.block_count ∧
      (f (.R_WIN, c)).2.dense_count = c.dense_count) :
    Validates m b (fun fuel => (run fuel).map f) := by
  obtain ⟨r, c, hrun, hvalid⟩ := h
  have hmap : ∀ fuel, 0x10000 ≤ fuel → (run fuel).map f = some (f (r, c)) := by
    intro fuel hfuel
    rw [hrun fuel hfuel]
    rfl
  by_cases hwin : r = .R_WIN
  · subst hwin
    obtain ⟨hcount, hdense⟩ := hkeep c
    refine ⟨(f (.R_WIN, c)).1, (f (.R_WIN, c)).2, hmap, fun hlarge => ?_, fun hsmall => ?_,
      fun hmin hmax _ => ?_⟩
    · cases hvalid.too_large hlarge
    · cases hvalid.too_small hsmall
    · rw [hcount, hdense]
      exact hvalid.win hmin hmax rfl
  · rw [herr r c hwin] at hmap
    exact ⟨r, c, hmap, hvalid⟩

theorem Validates.initializeEncoder {c : Codec}
    (h : Validates m b (fun fuel => chooseMatrix fuel behind m b c)) (allocateWorkspace : Codec → Bool) :
    Validates m b (fun fuel => initializeEncoder fuel behind allocateWorkspace m b c) := by
  apply h.map
  · intro r c hr
    exact if_neg hr
  · intro c
    dsimp only
    rw [if_pos rfl]
    split
    · exact ⟨rfl, rfl⟩
    · exact ⟨rfl, rfl⟩

theorem Validates.beginEncode {c : Codec}
    (h : Validates m b (fun fuel => chooseMatrix fuel behind m b c)) (allocateWorkspace : Codec → Bool)
    (encodeFeed : Codec → Result × Lists) :
    Validates m b (fun fuel => beginEncode fuel behind allocateWorkspace encodeFeed m b c) := by
  apply (h.initializeEncoder allocateWorkspace).map
  · intro r c hr
    exact if_neg hr
  · intro c
    dsimp only
    rw [if_pos rfl]
    exact ⟨rfl, rfl⟩

theorem Validates.beginDecode {c : Codec}
    (h : Validates m b (fun fuel => chooseMatrix fuel behind m b c))
    (allocateInput allocateWorkspace : Codec → Bool) :
    Validates m b (fun fuel => beginDecode fuel behind allocateInput allocateWorkspace m b c) := by
  apply h.map
  · intro r c hr
    exact if_neg hr
  · intro c
    dsimp only
    rw [if_pos rfl]
    split
    · exact ⟨rfl, rfl⟩
    · exact ⟨rfl, rfl⟩

variable (behind) in
/-- `ChooseMatrix` checks the block count, and with it `BeginEncode` and `BeginDecode`, exactly where the
low 16 bits of the quotient do not make a message that is too large pass for another one. -/
theorem block_count_validation (hm : 1 ≤ m) (hb : 1 ≤ b) (hm' : m ≤ 0x7fffffff)
    (hb' : b ≤ 0x7fffffff) (c : Codec) :
    (Validates m b (fun fuel => chooseMatrix fuel behind m b c) ∧
      (∀ allocateWorkspace encodeFeed, Validates m b
        (fun fuel => beginEncode fuel behind allocateWorkspace encodeFeed m b c)) ∧
      ∀ allocateInput allocateWorkspace, Validates m b
        (fun fuel => beginDecode fuel behind allocateInput allocateWorkspace m b c)) ↔
    Fits16 (m ⌈/⌉ b) := by
  constructor
  · rintro ⟨h, -, -⟩
    exact (chooseMatrix_validates behind hm hb hm' hb' c).mp h
  · intro hfits
    have h := (chooseMatrix_validates behind hm hb hm' hb' c).mpr hfits
    exact ⟨h, h.beginEncode, h.beginDecode⟩

theorem block_count_validation_five : Validates 5 2 (fun fuel =>
    beginDecode fuel 0 (fun _ => true) (fun _ => true) (5 : Nat) (2 : Nat) default) :=
  ((block_count_validation 0 (by decide) (by decide) (by decide) (by decide) default).mpr
    (.inl (by decide))).2.2 (fun _ => true) (fun _ => true)

/-- 65538 blocks pass for two. -/
theorem not_block_count_validation : ¬∀ m b : Nat, 1 ≤ m → 1 ≤ b → m ≤ 0x7fffffff → b ≤ 0x7fffffff →
    ∀ behind c, Validates m b (fun fuel => chooseMatrix fuel behind m b c) := by
  intro h
  have hfits := (chooseMatrix_validates 0 (by decide) (by decide) (by decide) (by decide) default).mp
    (h 65538 1 (by decide) (by decide) (by decide) (by decide) 0 default)
  have hquot : (65538 : Nat) ⌈/⌉ 1 = 65538 := by decide
  unfold Fits16 CAT_WIREHAIR_MAX_N at hfits
  omega

end Spec

end Libcat.Fec.ChooseMatrix
