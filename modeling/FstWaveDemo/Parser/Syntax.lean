import FstWaveDemo.LR.Complete
import FstWaveDemo.LR.Bison
import FstWaveDemo.Parser.Action

/-! # The grammar of FIRRTL

The rules of `syntax.y` with their actions, in the order of the file; the number
of a rule is its position in the list, rule 0 being the start rule that bison
adds. The parser is the table-driven parser run on the tables that bison builds
from this grammar.
-/

namespace FstWaveDemo

/-- A rule of the grammar file: its two sides, its action, and the token of its
`%prec` clause. -/
structure Production where
  lhs : Nonterminal
  rhs : List (LR.Symbol Kind Nonterminal)
  action : Term .value
  prec : Option Kind

/-- A named token in a rule. -/
abbrev t (name : TokenName) : LR.Symbol Kind Nonterminal := .term (.token name)

/-- A character token in a rule. -/
abbrev c (character : Char) : LR.Symbol Kind Nonterminal := .term (.char character)

/-- A nonterminal in a rule. -/
abbrev n (name : Nonterminal) : LR.Symbol Kind Nonterminal := .nonterm name

/-- A rule without a `%prec` clause. -/
abbrev rule (lhs : Nonterminal) (rhs : List (LR.Symbol Kind Nonterminal)) (action : Term .value) :
    Production :=
  ⟨lhs, rhs, action, none⟩

open Term in
/-- The `emptyStr` of the grammar file, a null pointer. -/
def emptyStr : Term .str := NULL

open Term in
/-- The start rule, circuits, names, and locators. -/
def circuitRules : List Production := [
  rule .accept [n .circuit, t .eof] nothing,
  rule .circuit [n .version, t .Circuit, n .ALLID, c ':', n .annotations, n .info, t .INDENT,
      n .cir_mods, t .DEDENT]
    (setResult (newNode'' .P_CIRCUIT synlineno (str 6) (str 3)) (plist 8)),
  rule .circuit [t .INDENT, n .cir_mods, t .DEDENT] (setResult nullNode (plist 2)),
  rule .ALLID [t .ID] (asStr (str 1)),
  rule .ALLID [t .Inst] (asStr (lit "inst")),
  rule .ALLID [t .Printf] (asStr (lit "printf")),
  rule .ALLID [t .Assert] (asStr (lit "assert")),
  rule .ALLID [t .Mem] (asStr (lit "mem")),
  rule .ALLID [t .Of] (asStr (lit "of")),
  rule .ALLID [t .Reg] (asStr (lit "reg")),
  rule .ALLID [t .Input] (asStr (lit "input")),
  rule .ALLID [t .Output] (asStr (lit "output")),
  rule .ALLID [t .Invalidate] (asStr (lit "invalidate")),
  rule .ALLID [t .Mux] (asStr (lit "mux")),
  rule .ALLID [t .Stop] (asStr (lit "stop")),
  rule .ALLID [t .Depth] (asStr (lit "depth")),
  rule .ALLID [t .Skip] (asStr (lit "skip")),
  rule .ALLID [t .Write] (asStr (lit "write")),
  rule .ALLID [t .Read] (asStr (lit "read")),
  rule .ALLID [t .Version] (asStr (lit "version")),
  rule .ALLID [t .Probe] (asStr (lit "probe")),
  rule .ALLID [t .Module] (asStr (lit "module")),
  rule .ALLID [t .Const] (asStr (lit "const")),
  rule .info [] (asStr NULL),
  rule .info [t .Info] (asStr (str 1))]

open Term in
/-- Types. -/
def typeRules : List Production := [
  rule .width [] (asInt (const (-1))),
  rule .width [c '<', t .INT, c '>'] (asInt (stoi 2)),
  rule .binary_point [] nothing,
  rule .binary_point [t .DoubleLeft, t .INT, t .DoubleRight] todo,
  rule .type_ground [t .Clock] (asNode (newPNode .P_Clock synlineno)),
  rule .type_ground [t .Reset]
    (asNode (setSign (setWidth (newPNode .P_RESET synlineno) (const 1)) (flag false))),
  rule .type_ground [t .AsyReset]
    (asNode (setSign (setWidth (newPNode .P_ASYRESET synlineno) (const 1)) (flag false))),
  rule .type_ground [t .IntType, n .width]
    (asNode (setSign (setWidth (newNode' .P_INT_TYPE synlineno (str 1) 0 []) (int 2))
      (isSigned 1))),
  rule .type_ground [t .ProbeType, c '<', t .IntType, c '>']
    (asNode (setSign (setWidth (newNode' .P_INT_TYPE synlineno (str 3) 0 []) (const (-1)))
      (isSigned 3))),
  rule .type_ground [t .ProbeType, c '<', t .IntType, n .width, c '>']
    (asNode (setSign (setWidth (newNode' .P_INT_TYPE synlineno (str 3) 0 []) (int 4))
      (isSigned 3))),
  rule .type_ground [t .ProbeType, c '<', t .IntType, c '<', t .INT, t .DoubleRight]
    (asNode (setSign (setWidth (newNode' .P_INT_TYPE synlineno (str 3) 0 []) (stoi 5))
      (isSigned 3))),
  rule .type_ground [t .anaType, n .width] todo,
  rule .type_ground [t .FixedType, n .width, n .binary_point] todo,
  rule .fields [] (asList newPList),
  rule .fields [n .fields, c ',', n .field] (asList (append (plist 1) (node 3))),
  rule .fields [n .field] (asList (newPListOf (node 1))),
  rule .type_aggregate [c '{', n .fields, c '}']
    (asNode (appendChildList (newPNode .P_AG_FIELDS synlineno) (plist 2))),
  rule .type_aggregate [n .type, c '[', t .INT, c ']']
    (asNode (appendExtraInfo (newNode' .P_AG_ARRAY synlineno emptyStr 1 [node 1]) (str 3))),
  rule .field [n .ALLID, c ':', n .type] (asNode (newNode' .P_FIELD synlineno (str 1) 1 [node 3])),
  rule .field [t .Flip, n .ALLID, c ':', n .type]
    (asNode (newNode' .P_FLIP_FIELD synlineno (str 2) 1 [node 4])),
  rule .type [n .type_ground] (asNode (node 1)),
  rule .type [t .Const, n .type_ground] (asNode (node 2)),
  rule .type [n .type_aggregate] (asNode (node 1)),
  rule .type [t .Const, n .type_aggregate] (asNode (node 2))]

open Term in
/-- Expressions. -/
def exprRules : List Production := [
  rule .primop_2expr [t .E2OP, n .expr, c ',', n .expr, c ')']
    (asNode (newNode' .P_2EXPR synlineno (str 1) 2 [node 2, node 4])),
  rule .primop_1expr [t .E1OP, n .expr, c ')']
    (asNode (newNode' .P_1EXPR synlineno (str 1) 1 [node 2])),
  rule .primop_1expr1int [t .E1I1OP, n .expr, c ',', t .INT, c ')']
    (asNode (appendExtraInfo (newNode' .P_1EXPR1INT synlineno (str 1) 1 [node 2]) (str 4))),
  rule .primop_1expr2int [t .E1I2OP, n .expr, c ',', t .INT, c ',', t .INT, c ')']
    (asNode (appendExtraInfo (appendExtraInfo (newNode' .P_1EXPR2INT synlineno (str 1) 1 [node 2])
      (str 4)) (str 6))),
  rule .exprs [] (asNode (newPNode .P_EXPRS synlineno)),
  rule .exprs [n .exprs, c ',', n .expr] (asNode (appendChild (node 1) (node 3))),
  rule .expr [t .IntType, n .width, c '(', c ')']
    (asNode (setSign (setWidth (newNode' .P_EXPR_INT_NOINIT synlineno (str 1) 0 []) (int 2))
      (isSigned 1))),
  rule .expr [t .IntType, n .width, c '(', t .INT, c ')']
    (asNode (appendExtraInfo (setSign (setWidth (newNode' .P_EXPR_INT_INIT synlineno (str 1) 0 [])
      (int 2)) (isSigned 1)) (str 4))),
  rule .expr [t .IntType, n .width, c '(', t .RINT, c ')']
    (asNode (appendExtraInfo (setSign (setWidth (newNode' .P_EXPR_INT_INIT synlineno (str 1) 0 [])
      (int 2)) (isSigned 1)) (str 4))),
  rule .expr [n .reference] (asNode (node 1)),
  rule .expr [t .Mux, c '(', n .expr, c ',', n .expr, c ',', n .expr, c ')']
    (asNode (newNode' .P_EXPR_MUX synlineno NULL 3 [node 3, node 5, node 7])),
  rule .expr [t .Validif, c '(', n .expr, c ',', n .expr, c ')'] (asNode (node 5)),
  rule .expr [n .primop_2expr] (asNode (node 1)),
  rule .expr [n .primop_1expr] (asNode (node 1)),
  rule .expr [n .primop_1expr1int] (asNode (node 1)),
  rule .expr [n .primop_1expr2int] (asNode (node 1)),
  rule .reference [n .ALLID] (asNode (newNode' .P_REF synlineno (str 1) 0 [])),
  rule .reference [n .reference, c '.', n .ALLID]
    (asNode (appendChild (node 1) (newNode' .P_REF_DOT synlineno (str 3) 0 []))),
  rule .reference [n .reference, c '[', t .INT, c ']']
    (asNode (appendChild (node 1) (newNode' .P_REF_IDX_INT synlineno (str 3) 0 []))),
  rule .reference [n .reference, c '[', n .expr, c ']']
    (asNode (appendChild (node 1) (newNode' .P_REF_IDX_EXPR synlineno NULL 1 [node 3])))]

open Term in
/-- Memories and memory ports. -/
def memoryRules : List Production := [
  rule .mem_datatype [t .DataType, t .RightArrow, n .type]
    (asNode (newNode' .P_DATATYPE synlineno NULL 1 [node 3])),
  rule .mem_depth [t .Depth, t .RightArrow, t .INT]
    (asNode (newNode' .P_DEPTH synlineno (str 3) 0 [])),
  rule .mem_rlatency [t .ReadLatency, t .RightArrow, t .INT]
    (asNode (newNode' .P_RLATENCT synlineno (str 3) 0 [])),
  rule .mem_wlatency [t .WriteLatency, t .RightArrow, t .INT]
    (asNode (newNode' .P_WLATENCT synlineno (str 3) 0 [])),
  rule .mem_ruw [t .ReadUnderwrite, t .RightArrow, t .Ruw]
    (asNode (newNode' .P_RUW synlineno (str 3) 0 [])),
  rule .mem_compulsory [n .mem_datatype, n .mem_depth, n .mem_rlatency, n .mem_wlatency]
    (asList (appendNum newPList 4 [node 1, node 2, node 3, node 4])),
  rule .mem_reader [] (asList newPList),
  rule .mem_reader [n .mem_reader, t .Reader, t .RightArrow, n .ALLID]
    (asList (append (plist 1) (newNode' .P_READER synlineno (str 4) 0 []))),
  rule .mem_writer [] (asList newPList),
  rule .mem_writer [n .mem_writer, t .Writer, t .RightArrow, n .ALLID]
    (asList (append (plist 1) (newNode' .P_WRITER synlineno (str 4) 0 []))),
  rule .mem_readwriter [] (asList newPList),
  rule .mem_readwriter [n .mem_readwriter, t .Readwriter, t .INT, n .ALLID]
    (asList (append (plist 1) (newNode' .P_READWRITER synlineno (str 4) 0 []))),
  rule .mem_optional [n .mem_reader, n .mem_writer, n .mem_readwriter]
    (asList (concat (concat (plist 1) (plist 2)) (plist 3))),
  rule .memory [t .Mem, n .ALLID, c ':', n .info, t .INDENT, n .mem_compulsory, n .mem_optional,
      n .mem_ruw, t .DEDENT]
    (asNode (appendChildList (appendChild (appendChildList
      (newNode .P_MEMORY synlineno (str 4) (str 2) 0 []) (plist 6)) (node 8)) (plist 7))),
  rule .chirrtl_memory_datatype [n .type] (asNode (newNode' .P_DATATYPE synlineno NULL 1 [node 1])),
  rule .chirrtl_memory_ruw [t .Ruw] (asNode (newNode' .P_RUW synlineno (str 1) 0 [])),
  rule .chirrtl_memory [t .SMem, n .ALLID, c ':', n .chirrtl_memory_datatype, c ',',
      n .chirrtl_memory_ruw, n .info]
    (asNode (newNode .P_SEQ_MEMORY synlineno (str 7) (str 2) 2 [node 4, node 6])),
  rule .chirrtl_memory [t .SMem, n .ALLID, c ':', n .chirrtl_memory_datatype, n .info]
    (asNode (newNode .P_SEQ_MEMORY synlineno (str 5) (str 2) 1 [node 4])),
  rule .chirrtl_memory [t .CMem, n .ALLID, c ':', n .chirrtl_memory_datatype, n .info]
    (asNode (newNode .P_COMB_MEMORY synlineno (str 5) (str 2) 1 [node 4])),
  rule .chirrtl_memory_port [t .Write, t .Mport, n .ALLID, c '=', n .ALLID, c '[', n .expr, c ']',
      c ',', n .ALLID, n .info]
    (asNode (appendExtraInfo (appendExtraInfo
      (newNode .P_WRITE synlineno (str 11) (str 3) 2 [node 7]) (str 5)) (str 10))),
  rule .chirrtl_memory_port [t .Read, t .Mport, n .ALLID, c '=', n .ALLID, c '[', n .expr, c ']',
      c ',', n .ALLID, n .info]
    (asNode (appendExtraInfo (appendExtraInfo
      (newNode .P_READ synlineno (str 11) (str 3) 2 [node 7]) (str 5)) (str 10))),
  rule .chirrtl_memory_port [t .Infer, t .Mport, n .ALLID, c '=', n .ALLID, c '[', n .expr, c ']',
      c ',', n .ALLID, n .info]
    (asNode (appendExtraInfo (appendExtraInfo
      (newNode .P_INFER synlineno (str 11) (str 3) 2 [node 7]) (str 5)) (str 10)))]

open Term in
/-- Statements. -/
def statementRules : List Production := [
  rule .references [] nothing,
  rule .references [n .references, n .reference] todo,
  rule .statements [] (asNode (newPNode .P_STATEMENTS synlineno)),
  rule .statements [n .statements, n .statement] (asNode (appendChild (node 1) (node 2))),
  ⟨.when_else, [], asNode (newPNode .P_STATEMENTS synlineno), some (.token .LOWER_THAN_ELSE)⟩,
  rule .when_else [t .Else, c ':', t .INDENT, n .statements, t .DEDENT] (asNode (node 4)),
  rule .statement [t .Wire, n .ALLID, c ':', n .type, n .info]
    (asNode (newNode .P_WIRE_DEF (linenoOf 4) (str 5) (str 2) 1 [node 4])),
  rule .statement [t .Reg, n .ALLID, c ':', n .type, c ',', n .expr, n .info]
    (asNode (newNode .P_REG_DEF (linenoOf 4) (str 7) (str 2) 2 [node 4, node 6])),
  rule .statement [t .RegReset, n .ALLID, c ':', n .type, c ',', n .expr, c ',', n .expr, c ',',
      n .expr, n .info]
    (asNode (newNode .P_REG_RESET_DEF (linenoOf 4) (str 11) (str 2) 4
      [node 4, node 6, node 8, node 10])),
  rule .statement [n .memory] (asNode (node 1)),
  rule .statement [n .chirrtl_memory] (asNode (node 1)),
  rule .statement [n .chirrtl_memory_port] (asNode (node 1)),
  rule .statement [t .Inst, n .ALLID, t .Of, n .ALLID, n .info]
    (asNode (appendExtraInfo (newNode .P_INST synlineno (str 5) (str 2) 0 []) (str 4))),
  rule .statement [t .Node, n .ALLID, c '=', n .expr, n .info]
    (asNode (newNode .P_NODE synlineno (str 5) (str 2) 1 [node 4])),
  rule .statement [t .Connect, n .reference, c ',', n .expr, n .info]
    (asNode (newNode .P_CONNECT (linenoOf 2) (str 5) NULL 2 [node 2, node 4])),
  rule .statement [t .Connect, n .reference, c ',', t .Read, c '(', n .expr, c ')', n .info]
    (asNode (newNode .P_CONNECT (linenoOf 2) (str 8) NULL 2 [node 2, node 6])),
  rule .statement [n .reference, t .Leftarrow, n .expr, n .info]
    (asNode (newNode .P_PAR_CONNECT (linenoOf 1) (str 4) NULL 2 [node 1, node 3])),
  rule .statement [t .Invalidate, n .reference, n .info]
    (asNode (newNode .P_CONNECT (linenoOf 2) (str 3) NULL 2
      [node 2, setWidth (newNode' .P_INVALID synlineno NULL 0 []) (const 1)])),
  rule .statement [t .Define, n .reference, c '=', t .Probe, c '(', n .expr, c ')', n .info]
    (asNode (newNode .P_CONNECT synlineno (str 8) NULL 2 [node 2, node 6])),
  rule .statement [t .Define, n .reference, c '=', n .expr, n .info]
    (asNode (newNode .P_CONNECT synlineno (str 5) NULL 2 [node 2, node 4])),
  rule .statement [t .Attach, c '(', n .references, c ')', n .info] todo,
  rule .statement [t .When, n .expr, c ':', n .info, t .INDENT, n .statements, t .DEDENT,
      n .when_else]
    (asNode (newNode .P_WHEN (linenoOf 2) (str 4) NULL 3 [node 2, node 6, node 8])),
  rule .statement [t .Stop, c '(', n .expr, c ',', n .expr, c ',', t .INT, c ')', n .info]
    (asNode (appendExtraInfo (newNode .P_STOP synlineno (str 9) NULL 2 [node 3, node 5]) (str 7))),
  rule .statement [t .Stop, c '(', n .expr, c ',', n .expr, c ',', t .INT, c ')', c ':', n .ALLID,
      n .info]
    (asNode (appendExtraInfo (newNode .P_STOP synlineno (str 11) (str 10) 2 [node 3, node 5])
      (str 7))),
  rule .statement [t .Printf, c '(', n .expr, c ',', n .expr, c ',', t .String, n .exprs, c ')',
      c ':', n .ALLID, n .info]
    (asNode (appendExtraInfo (newNode .P_PRINTF synlineno (str 12) (str 11) 3
      [node 3, node 5, node 8]) (str 7))),
  rule .statement [t .Printf, c '(', n .expr, c ',', n .expr, c ',', t .String, n .exprs, c ')',
      n .info]
    (asNode (appendExtraInfo (newNode .P_PRINTF synlineno (str 10) NULL 3 [node 3, node 5, node 8])
      (str 7))),
  rule .statement [t .Assert, c '(', n .expr, c ',', n .expr, c ',', n .expr, c ',', t .String,
      c ')', c ':', n .ALLID, n .info]
    (asNode (appendExtraInfo (newNode .P_ASSERT synlineno (str 13) (str 12) 3
      [node 3, node 5, node 7]) (str 9))),
  rule .statement [t .Assert, c '(', n .expr, c ',', n .expr, c ',', n .expr, c ',', t .String,
      c ')', n .info]
    (asNode (appendExtraInfo (newNode .P_ASSERT synlineno (str 11) NULL 3 [node 3, node 5, node 7])
      (str 9))),
  rule .statement [t .Skip, n .info] (asNode nullNode)]

open Term in
/-- Ports and modules. -/
def moduleRules : List Production := [
  rule .port [t .Input, n .ALLID, c ':', n .type, n .info]
    (asNode (newNode .P_INPUT synlineno (str 5) (str 2) 1 [node 4])),
  rule .port [t .Output, n .ALLID, c ':', n .type, n .info]
    (asNode (newNode .P_OUTPUT synlineno (str 5) (str 2) 1 [node 4])),
  rule .ports [] (asNode (newPNode .P_PORTS noLineno)),
  rule .ports [n .ports, n .port] (asNode (appendChild (node 1) (node 2))),
  rule .opt_public [] nothing,
  rule .opt_public [t .Public] nothing,
  rule .module [n .opt_public, t .Module, n .ALLID, c ':', n .info, t .INDENT, n .ports,
      n .statements, t .DEDENT]
    (asNode (newNode .P_MOD synlineno (str 5) (str 3) 2 [node 7, node 8])),
  rule .ext_defname [] (asStr (lit "")),
  rule .ext_defname [t .Defname, c '=', n .ALLID] (asStr (str 3)),
  rule .params [] (asList newPList),
  rule .params [n .params, n .param] (asList (append (plist 1) (node 2))),
  rule .param [t .Parameter, n .ALLID, c '=', t .String] nothing,
  rule .param [t .Parameter, n .ALLID, c '=', t .INT] nothing,
  rule .extmodule [t .Extmodule, n .ALLID, c ':', n .info, t .INDENT, n .ports, n .ext_defname,
      n .params, t .DEDENT]
    (asNode (appendExtraInfo (newNode .P_EXTMOD synlineno (str 4) (str 2) 1 [node 6]) (str 7))),
  rule .intmodule [t .Intmodule, n .ALLID, c ':', n .info, t .INDENT, n .ports, t .Intrinsic, c '=',
      n .ALLID, n .params, t .DEDENT]
    todo]

open Term in
/-- Annotations, the version line, and the modules of a circuit. -/
def annotationRules : List Production := [
  rule .member [t .String, c ':', t .String] nothing,
  rule .member [t .String, c ':', n .ALLID] nothing,
  rule .member [t .String, c ':', t .INT] nothing,
  rule .member [t .String, c ':', n .json] nothing,
  rule .member [t .String, c ':', n .json_array] nothing,
  rule .members [] nothing,
  rule .members [n .member] nothing,
  rule .members [n .member, c ',', n .members] nothing,
  rule .Strings [t .String] nothing,
  rule .Strings [t .String, c ',', n .Strings] nothing,
  rule .json [c '{', c '}'] nothing,
  rule .json [c '{', t .INDENT, n .members, t .DEDENT, c '}'] nothing,
  rule .json [c '[', t .INDENT, n .Strings, t .DEDENT, c ']'] nothing,
  rule .jsons [n .json] nothing,
  rule .jsons [n .json, c ',', n .jsons] nothing,
  rule .json_array [c '[', t .INDENT, n .jsons, t .DEDENT, c ']'] nothing,
  rule .annotations [] nothing,
  rule .annotations [c '%', c '[', n .json_array, c ']'] nothing,
  rule .version [t .Firrtl, t .Version, t .INT, c '.', t .INT, c '.', t .INT] nothing,
  rule .cir_mods [] (asList newPList),
  rule .cir_mods [n .cir_mods, n .module] (asList (append (plist 1) (node 2))),
  rule .cir_mods [n .cir_mods, n .extmodule] (asList (append (plist 1) (node 2))),
  rule .cir_mods [n .cir_mods, n .intmodule] todo]

/-- The rules of `syntax.y`. -/
def productions : List Production :=
  circuitRules ++ typeRules ++ exprRules ++ memoryRules ++ statementRules ++ moduleRules ++
    annotationRules

/-- The grammar that bison is given. -/
def grammar : LR.Grammar Kind Nonterminal where
  rules := productions.map fun p => ⟨p.lhs, p.rhs, p.prec⟩
  prec := [(.token .LOWER_THAN_ELSE, 1, .nonassoc), (.token .Else, 2, .nonassoc)]
  terminals := 254
  nonterminals := 55

/-- The tables of the generated parser. -/
@[irreducible] def tables : LR.Tables := LR.bison grammar

/-- The semantic actions, as the parser calls them. -/
def act : LR.LineActions Val := fun rule line values =>
  productions[rule]?.bind fun p => p.action.eval ⟨line, values⟩

/-- The semantic actions with lines forgotten. -/
def sem : LR.Actions Val := fun rule values =>
  productions[rule]?.bind fun p => p.action.eval ⟨0, values⟩

/-- Forgetting lines commutes with the actions. -/
theorem carries_erase : LR.Carries act sem Val.erase := by
  intro rule line values
  unfold sem act
  cases productions[rule]? with
  | none => rfl
  | some p =>
      have erased : Env.erase ⟨line, values⟩ = ⟨0, values.map Val.erase⟩ := by
        rw [Env.erase, PNode.eraseLine_natCast]
      have same := p.action.eval_erase ⟨line, values⟩
      rw [erased] at same
      exact same

/-- A token as the scanner hands it to the parser. -/
abbrev Lexeme := LR.Lexeme Kind Val

/-- The parser accepts a sequence of tokens; `root` and `list` are what it leaves
in the scanner object. -/
def Syntax.Accepts (input : List Lexeme) (root : PNode) (list : List PNode) : Prop :=
  LR.Accepts grammar tables act input (.result root list)

end FstWaveDemo
