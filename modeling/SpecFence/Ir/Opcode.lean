/-!
# Opcodes

The operations of the intermediate representation, the format of the instructions that have them,
and the properties that the analyses ask for.
-/

set_option autoImplicit false

namespace SpecFence

/-- The shapes of instructions: how many operands there are and what else belongs to one. -/
inductive Format where
  | atomicCas
  | atomicRmw
  | binary
  | binaryImm64
  | binaryImm8
  | branchTable
  | brif
  | call
  | callIndirect
  | condTrap
  | dynamicStackLoad
  | dynamicStackStore
  | floatCompare
  | funcAddr
  | intAddTrap
  | intCompare
  | intCompareImm
  | jump
  | load
  | loadNoOffset
  | multiary
  | nullary
  | shuffle
  | stackLoad
  | stackStore
  | store
  | storeNoOffset
  | ternary
  | ternaryImm8
  | trap
  | unary
  | unaryConst
  | unaryGlobalValue
  | unaryFloat32
  | unaryFloat64
  | unaryImm
deriving DecidableEq, Repr

inductive Opcode where
  | atomicCas
  | atomicRmw
  | swizzle | x86Pshufb | smin | umin | smax | umax | avgRound | uaddSat | saddSat | usubSat
  | ssubSat | iadd | isub | imul | umulhi | smulhi | sqmulRoundSat | x86Pmulhrsw | udiv | sdiv
  | urem | srem | uaddOverflow | saddOverflow | usubOverflow | ssubOverflow | umulOverflow
  | smulOverflow | band | bor | bxor | bandNot | borNot | bxorNot | rotl | rotr | ishl | ushr
  | sshr | fadd | fsub | fmul | fdiv | fcopysign | fmin | fmax | snarrow | unarrow | uunarrow
  | iaddPairwise | x86Pmaddubsw | iconcat
  | iaddImm | imulImm | udivImm | sdivImm | uremImm | sremImm | irsubImm | bandImm | borImm
  | bxorImm | rotlImm | rotrImm | ishlImm | ushrImm | sshrImm
  | extractlane | extractVector
  | brTable
  | brif
  | call | returnCall
  | callIndirect | returnCallIndirect
  | trapz | trapnz
  | dynamicStackLoad | dynamicStackAddr
  | dynamicStackStore
  | fcmp
  | funcAddr
  | uaddOverflowTrap
  | icmp
  | icmpImm
  | jump
  | load | uload8 | sload8 | uload16 | sload16 | uload32 | sload32 | uload8x8 | sload8x8 | uload16x4
  | sload16x4 | uload32x2 | sload32x2
  | bitcast | atomicLoad
  | ret
  | debugtrap | getPinnedReg | getFramePointer | getStackPointer | getReturnAddress | null | nop
  | fence
  | shuffle
  | stackLoad | stackAddr
  | stackStore
  | store | istore8 | istore16 | istore32
  | atomicStore
  | select | selectSpectreGuard | bitselect | x86Blendv | iaddCin | iaddCarry | isubBin | isubBorrow
  | fma
  | insertlane
  | trap
  | splat | setPinnedReg | vanyTrue | vallTrue | vhighBits | ineg | iabs | bnot | bitrev | clz | cls
  | ctz | bswap | popcnt | sqrt | fneg | fabs | ceil | floor | trunc | nearest | isNull
  | isInvalid | scalarToVector | bmask | ireduce | swidenLow | swidenHigh | uwidenLow | uwidenHigh
  | uextend | sextend | fpromote | fdemote | fvdemote | fvpromoteLow | fcvtToUint | fcvtToSint
  | fcvtToUintSat | fcvtToSintSat | x86Cvtt2dq | fcvtFromUint | fcvtFromSint | isplit
  | vconst
  | globalValue | symbolValue | tlsValue
  | f32const
  | f64const
  | iconst
deriving DecidableEq, Repr

namespace Opcode

def name : Opcode → String
  | .atomicCas => "atomic_cas"
  | .atomicRmw => "atomic_rmw"
  | .swizzle => "swizzle"
  | .x86Pshufb => "x86_pshufb"
  | .smin => "smin"
  | .umin => "umin"
  | .smax => "smax"
  | .umax => "umax"
  | .avgRound => "avg_round"
  | .uaddSat => "uadd_sat"
  | .saddSat => "sadd_sat"
  | .usubSat => "usub_sat"
  | .ssubSat => "ssub_sat"
  | .iadd => "iadd"
  | .isub => "isub"
  | .imul => "imul"
  | .umulhi => "umulhi"
  | .smulhi => "smulhi"
  | .sqmulRoundSat => "sqmul_round_sat"
  | .x86Pmulhrsw => "x86_pmulhrsw"
  | .udiv => "udiv"
  | .sdiv => "sdiv"
  | .urem => "urem"
  | .srem => "srem"
  | .uaddOverflow => "uadd_overflow"
  | .saddOverflow => "sadd_overflow"
  | .usubOverflow => "usub_overflow"
  | .ssubOverflow => "ssub_overflow"
  | .umulOverflow => "umul_overflow"
  | .smulOverflow => "smul_overflow"
  | .band => "band"
  | .bor => "bor"
  | .bxor => "bxor"
  | .bandNot => "band_not"
  | .borNot => "bor_not"
  | .bxorNot => "bxor_not"
  | .rotl => "rotl"
  | .rotr => "rotr"
  | .ishl => "ishl"
  | .ushr => "ushr"
  | .sshr => "sshr"
  | .fadd => "fadd"
  | .fsub => "fsub"
  | .fmul => "fmul"
  | .fdiv => "fdiv"
  | .fcopysign => "fcopysign"
  | .fmin => "fmin"
  | .fmax => "fmax"
  | .snarrow => "snarrow"
  | .unarrow => "unarrow"
  | .uunarrow => "uunarrow"
  | .iaddPairwise => "iadd_pairwise"
  | .x86Pmaddubsw => "x86_pmaddubsw"
  | .iconcat => "iconcat"
  | .iaddImm => "iadd_imm"
  | .imulImm => "imul_imm"
  | .udivImm => "udiv_imm"
  | .sdivImm => "sdiv_imm"
  | .uremImm => "urem_imm"
  | .sremImm => "srem_imm"
  | .irsubImm => "irsub_imm"
  | .bandImm => "band_imm"
  | .borImm => "bor_imm"
  | .bxorImm => "bxor_imm"
  | .rotlImm => "rotl_imm"
  | .rotrImm => "rotr_imm"
  | .ishlImm => "ishl_imm"
  | .ushrImm => "ushr_imm"
  | .sshrImm => "sshr_imm"
  | .extractlane => "extractlane"
  | .extractVector => "extract_vector"
  | .brTable => "br_table"
  | .brif => "brif"
  | .call => "call"
  | .returnCall => "return_call"
  | .callIndirect => "call_indirect"
  | .returnCallIndirect => "return_call_indirect"
  | .trapz => "trapz"
  | .trapnz => "trapnz"
  | .dynamicStackLoad => "dynamic_stack_load"
  | .dynamicStackAddr => "dynamic_stack_addr"
  | .dynamicStackStore => "dynamic_stack_store"
  | .fcmp => "fcmp"
  | .funcAddr => "func_addr"
  | .uaddOverflowTrap => "uadd_overflow_trap"
  | .icmp => "icmp"
  | .icmpImm => "icmp_imm"
  | .jump => "jump"
  | .load => "load"
  | .uload8 => "uload8"
  | .sload8 => "sload8"
  | .uload16 => "uload16"
  | .sload16 => "sload16"
  | .uload32 => "uload32"
  | .sload32 => "sload32"
  | .uload8x8 => "uload8x8"
  | .sload8x8 => "sload8x8"
  | .uload16x4 => "uload16x4"
  | .sload16x4 => "sload16x4"
  | .uload32x2 => "uload32x2"
  | .sload32x2 => "sload32x2"
  | .bitcast => "bitcast"
  | .atomicLoad => "atomic_load"
  | .ret => "return"
  | .debugtrap => "debugtrap"
  | .getPinnedReg => "get_pinned_reg"
  | .getFramePointer => "get_frame_pointer"
  | .getStackPointer => "get_stack_pointer"
  | .getReturnAddress => "get_return_address"
  | .null => "null"
  | .nop => "nop"
  | .fence => "fence"
  | .shuffle => "shuffle"
  | .stackLoad => "stack_load"
  | .stackAddr => "stack_addr"
  | .stackStore => "stack_store"
  | .store => "store"
  | .istore8 => "istore8"
  | .istore16 => "istore16"
  | .istore32 => "istore32"
  | .atomicStore => "atomic_store"
  | .select => "select"
  | .selectSpectreGuard => "select_spectre_guard"
  | .bitselect => "bitselect"
  | .x86Blendv => "x86_blendv"
  | .iaddCin => "iadd_cin"
  | .iaddCarry => "iadd_carry"
  | .isubBin => "isub_bin"
  | .isubBorrow => "isub_borrow"
  | .fma => "fma"
  | .insertlane => "insertlane"
  | .trap => "trap"
  | .splat => "splat"
  | .setPinnedReg => "set_pinned_reg"
  | .vanyTrue => "vany_true"
  | .vallTrue => "vall_true"
  | .vhighBits => "vhigh_bits"
  | .ineg => "ineg"
  | .iabs => "iabs"
  | .bnot => "bnot"
  | .bitrev => "bitrev"
  | .clz => "clz"
  | .cls => "cls"
  | .ctz => "ctz"
  | .bswap => "bswap"
  | .popcnt => "popcnt"
  | .sqrt => "sqrt"
  | .fneg => "fneg"
  | .fabs => "fabs"
  | .ceil => "ceil"
  | .floor => "floor"
  | .trunc => "trunc"
  | .nearest => "nearest"
  | .isNull => "is_null"
  | .isInvalid => "is_invalid"
  | .scalarToVector => "scalar_to_vector"
  | .bmask => "bmask"
  | .ireduce => "ireduce"
  | .swidenLow => "swiden_low"
  | .swidenHigh => "swiden_high"
  | .uwidenLow => "uwiden_low"
  | .uwidenHigh => "uwiden_high"
  | .uextend => "uextend"
  | .sextend => "sextend"
  | .fpromote => "fpromote"
  | .fdemote => "fdemote"
  | .fvdemote => "fvdemote"
  | .fvpromoteLow => "fvpromote_low"
  | .fcvtToUint => "fcvt_to_uint"
  | .fcvtToSint => "fcvt_to_sint"
  | .fcvtToUintSat => "fcvt_to_uint_sat"
  | .fcvtToSintSat => "fcvt_to_sint_sat"
  | .x86Cvtt2dq => "x86_cvtt2dq"
  | .fcvtFromUint => "fcvt_from_uint"
  | .fcvtFromSint => "fcvt_from_sint"
  | .isplit => "isplit"
  | .vconst => "vconst"
  | .globalValue => "global_value"
  | .symbolValue => "symbol_value"
  | .tlsValue => "tls_value"
  | .f32const => "f32const"
  | .f64const => "f64const"
  | .iconst => "iconst"

def format : Opcode → Format
  | .atomicCas => .atomicCas
  | .atomicRmw => .atomicRmw
  | .swizzle | .x86Pshufb | .smin | .umin | .smax | .umax | .avgRound | .uaddSat | .saddSat
    | .usubSat | .ssubSat | .iadd | .isub | .imul | .umulhi | .smulhi | .sqmulRoundSat
    | .x86Pmulhrsw | .udiv | .sdiv | .urem | .srem | .uaddOverflow | .saddOverflow | .usubOverflow
    | .ssubOverflow | .umulOverflow | .smulOverflow | .band | .bor | .bxor | .bandNot | .borNot
    | .bxorNot | .rotl | .rotr | .ishl | .ushr | .sshr | .fadd | .fsub | .fmul | .fdiv
    | .fcopysign | .fmin | .fmax | .snarrow | .unarrow | .uunarrow | .iaddPairwise | .x86Pmaddubsw
    | .iconcat => .binary
  | .iaddImm | .imulImm | .udivImm | .sdivImm | .uremImm | .sremImm | .irsubImm | .bandImm
    | .borImm | .bxorImm | .rotlImm | .rotrImm | .ishlImm | .ushrImm | .sshrImm => .binaryImm64
  | .extractlane | .extractVector => .binaryImm8
  | .brTable => .branchTable
  | .brif => .brif
  | .call | .returnCall => .call
  | .callIndirect | .returnCallIndirect => .callIndirect
  | .trapz | .trapnz => .condTrap
  | .dynamicStackLoad | .dynamicStackAddr => .dynamicStackLoad
  | .dynamicStackStore => .dynamicStackStore
  | .fcmp => .floatCompare
  | .funcAddr => .funcAddr
  | .uaddOverflowTrap => .intAddTrap
  | .icmp => .intCompare
  | .icmpImm => .intCompareImm
  | .jump => .jump
  | .load | .uload8 | .sload8 | .uload16 | .sload16 | .uload32 | .sload32 | .uload8x8 | .sload8x8
    | .uload16x4 | .sload16x4 | .uload32x2 | .sload32x2 => .load
  | .bitcast | .atomicLoad => .loadNoOffset
  | .ret => .multiary
  | .debugtrap | .getPinnedReg | .getFramePointer | .getStackPointer | .getReturnAddress | .null
    | .nop | .fence => .nullary
  | .shuffle => .shuffle
  | .stackLoad | .stackAddr => .stackLoad
  | .stackStore => .stackStore
  | .store | .istore8 | .istore16 | .istore32 => .store
  | .atomicStore => .storeNoOffset
  | .select | .selectSpectreGuard | .bitselect | .x86Blendv | .iaddCin | .iaddCarry | .isubBin
    | .isubBorrow | .fma => .ternary
  | .insertlane => .ternaryImm8
  | .trap => .trap
  | .splat | .setPinnedReg | .vanyTrue | .vallTrue | .vhighBits | .ineg | .iabs | .bnot | .bitrev
    | .clz | .cls | .ctz | .bswap | .popcnt | .sqrt | .fneg | .fabs | .ceil | .floor | .trunc
    | .nearest | .isNull | .isInvalid | .scalarToVector | .bmask | .ireduce | .swidenLow
    | .swidenHigh | .uwidenLow | .uwidenHigh | .uextend | .sextend | .fpromote | .fdemote
    | .fvdemote | .fvpromoteLow | .fcvtToUint | .fcvtToSint | .fcvtToUintSat | .fcvtToSintSat
    | .x86Cvtt2dq | .fcvtFromUint | .fcvtFromSint | .isplit => .unary
  | .vconst => .unaryConst
  | .globalValue | .symbolValue | .tlsValue => .unaryGlobalValue
  | .f32const => .unaryFloat32
  | .f64const => .unaryFloat64
  | .iconst => .unaryImm

def all : List Opcode :=
  [.atomicCas, .atomicRmw, .swizzle, .x86Pshufb, .smin, .umin, .smax, .umax, .avgRound, .uaddSat
    , .saddSat, .usubSat, .ssubSat, .iadd, .isub, .imul, .umulhi, .smulhi, .sqmulRoundSat
    , .x86Pmulhrsw, .udiv, .sdiv, .urem, .srem, .uaddOverflow, .saddOverflow, .usubOverflow
    , .ssubOverflow, .umulOverflow, .smulOverflow, .band, .bor, .bxor, .bandNot, .borNot, .bxorNot
    , .rotl, .rotr, .ishl, .ushr, .sshr, .fadd, .fsub, .fmul, .fdiv, .fcopysign, .fmin, .fmax
    , .snarrow, .unarrow, .uunarrow, .iaddPairwise, .x86Pmaddubsw, .iconcat, .iaddImm, .imulImm
    , .udivImm, .sdivImm, .uremImm, .sremImm, .irsubImm, .bandImm, .borImm, .bxorImm, .rotlImm
    , .rotrImm, .ishlImm, .ushrImm, .sshrImm, .extractlane, .extractVector, .brTable, .brif, .call
    , .returnCall, .callIndirect, .returnCallIndirect, .trapz, .trapnz, .dynamicStackLoad
    , .dynamicStackAddr, .dynamicStackStore, .fcmp, .funcAddr, .uaddOverflowTrap, .icmp, .icmpImm
    , .jump, .load, .uload8, .sload8, .uload16, .sload16, .uload32, .sload32, .uload8x8, .sload8x8
    , .uload16x4, .sload16x4, .uload32x2, .sload32x2, .bitcast, .atomicLoad, .ret, .debugtrap
    , .getPinnedReg, .getFramePointer, .getStackPointer, .getReturnAddress, .null, .nop, .fence
    , .shuffle, .stackLoad, .stackAddr, .stackStore, .store, .istore8, .istore16, .istore32
    , .atomicStore, .select, .selectSpectreGuard, .bitselect, .x86Blendv, .iaddCin, .iaddCarry
    , .isubBin, .isubBorrow, .fma, .insertlane, .trap, .splat, .setPinnedReg, .vanyTrue, .vallTrue
    , .vhighBits, .ineg, .iabs, .bnot, .bitrev, .clz, .cls, .ctz, .bswap, .popcnt, .sqrt, .fneg
    , .fabs, .ceil, .floor, .trunc, .nearest, .isNull, .isInvalid, .scalarToVector, .bmask
    , .ireduce, .swidenLow, .swidenHigh, .uwidenLow, .uwidenHigh, .uextend, .sextend, .fpromote
    , .fdemote, .fvdemote, .fvpromoteLow, .fcvtToUint, .fcvtToSint, .fcvtToUintSat, .fcvtToSintSat
    , .x86Cvtt2dq, .fcvtFromUint, .fcvtFromSint, .isplit, .vconst, .globalValue, .symbolValue
    , .tlsValue, .f32const, .f64const, .iconst]

def ofName? (name : String) : Option Opcode := all.find? fun op => op.name == name

def isTerminator : Opcode → Bool
  | .brTable | .brif | .returnCall | .returnCallIndirect | .jump | .ret | .trap => true
  | _ => false

def isBranch : Opcode → Bool
  | .brTable | .brif | .jump => true
  | _ => false

def isCall : Opcode → Bool
  | .call | .returnCall | .callIndirect | .returnCallIndirect => true
  | _ => false

def canLoad : Opcode → Bool
  | .atomicCas | .atomicRmw | .dynamicStackLoad | .load | .uload8 | .sload8 | .uload16 | .sload16
    | .uload32 | .sload32 | .uload8x8 | .sload8x8 | .uload16x4 | .sload16x4 | .uload32x2
    | .sload32x2 | .atomicLoad | .debugtrap | .stackLoad => true
  | _ => false

def canStore : Opcode → Bool
  | .atomicCas | .atomicRmw | .dynamicStackStore | .debugtrap | .stackStore | .store | .istore8
    | .istore16 | .istore32 | .atomicStore => true
  | _ => false

end Opcode

end SpecFence
