import Cddl.Grammar.Terminal

/-!
The grammar of one rule. The productions of a nonterminal stand in order of preference: where a
stretch of text has several readings, the earliest production that fits is its reading. Lists are
read from the left, so that a longer list extends a shorter one. Only an empty group choice, and
a group that is one, derives the empty sequence.
-/
namespace Cddl

inductive Nonterminal where
  | rule | params | moreParams | args | moreArgs | type | alternatives | type1 | operator | type2
  | typeName | group | choices | choice | entries | entry | memberKey | bareword | occur | value
deriving DecidableEq, Repr

inductive Symbol where
  | terminal (t : Terminal)
  | nonterminal (n : Nonterminal)
deriving DecidableEq, Repr

inductive Production where
  | ruleGeneric | rulePlain
  | paramsMany | paramsOne | moreParamsOne | moreParamsNext
  | argsMany | argsOne | moreArgsOne | moreArgsNext
  | typeMany | typeOne | alternativesOne | alternativesNext
  | type1Binary | type1Operand | operatorRange | operatorControl
  | type2Value | type2Name | type2Paren | type2Map | type2Array | type2Unwrap
  | type2ChoiceGroup | type2ChoiceName | type2Tagged | type2Major | type2Any
  | typeNameGeneric | typeNamePlain
  | groupMany | groupOne | choicesOne | choicesNext | choiceEntries | choiceEmpty
  | entriesOneComma | entriesOne | entriesNextComma | entriesNext
  | entryOccurKey | entryOccur | entryKey | entryType | entryOccurGroup | entryGroup
  | keyCut | keyType | keyBareword | keyValue
  | bareword | occur | valueNumber | valueText | valueBytes
deriving DecidableEq, Repr

namespace Nonterminal

def productions : Nonterminal → List Production
  | rule => [.ruleGeneric, .rulePlain]
  | params => [.paramsMany, .paramsOne]
  | moreParams => [.moreParamsOne, .moreParamsNext]
  | args => [.argsMany, .argsOne]
  | moreArgs => [.moreArgsOne, .moreArgsNext]
  | type => [.typeMany, .typeOne]
  | alternatives => [.alternativesOne, .alternativesNext]
  | type1 => [.type1Binary, .type1Operand]
  | operator => [.operatorRange, .operatorControl]
  | type2 =>
    [.type2Value, .type2Name, .type2Paren, .type2Map, .type2Array, .type2Unwrap,
      .type2ChoiceGroup, .type2ChoiceName, .type2Tagged, .type2Major, .type2Any]
  | typeName => [.typeNameGeneric, .typeNamePlain]
  | group => [.groupMany, .groupOne]
  | choices => [.choicesOne, .choicesNext]
  | choice => [.choiceEntries, .choiceEmpty]
  | entries => [.entriesOneComma, .entriesOne, .entriesNextComma, .entriesNext]
  | entry => [.entryOccurKey, .entryOccur, .entryKey, .entryType, .entryOccurGroup, .entryGroup]
  | memberKey => [.keyCut, .keyType, .keyBareword, .keyValue]
  | bareword => [.bareword]
  | occur => [.occur]
  | value => [.valueNumber, .valueText, .valueBytes]

/-- The nonterminal derives the empty sequence. -/
def nullable : Nonterminal → Bool
  | group => true
  | choice => true
  | _ => false

end Nonterminal

namespace Production

def lhs : Production → Nonterminal
  | ruleGeneric | rulePlain => .rule
  | paramsMany | paramsOne => .params
  | moreParamsOne | moreParamsNext => .moreParams
  | argsMany | argsOne => .args
  | moreArgsOne | moreArgsNext => .moreArgs
  | typeMany | typeOne => .type
  | alternativesOne | alternativesNext => .alternatives
  | type1Binary | type1Operand => .type1
  | operatorRange | operatorControl => .operator
  | type2Value | type2Name | type2Paren | type2Map | type2Array | type2Unwrap
  | type2ChoiceGroup | type2ChoiceName | type2Tagged | type2Major | type2Any => .type2
  | typeNameGeneric | typeNamePlain => .typeName
  | groupMany | groupOne => .group
  | choicesOne | choicesNext => .choices
  | choiceEntries | choiceEmpty => .choice
  | entriesOneComma | entriesOne | entriesNextComma | entriesNext => .entries
  | entryOccurKey | entryOccur | entryKey | entryType | entryOccurGroup | entryGroup => .entry
  | keyCut | keyType | keyBareword | keyValue => .memberKey
  | bareword => .bareword
  | occur => .occur
  | valueNumber | valueText | valueBytes => .value

open Cddl.Symbol in
def rhs : Production → List Symbol
  | ruleGeneric => [terminal .name, nonterminal .params, terminal .assign, nonterminal .entry]
  | rulePlain => [terminal .name, terminal .assign, nonterminal .entry]
  | paramsMany =>
    [terminal .less, terminal .name, nonterminal .moreParams, terminal .greater]
  | paramsOne => [terminal .less, terminal .name, terminal .greater]
  | moreParamsOne => [terminal .comma, terminal .name]
  | moreParamsNext => [nonterminal .moreParams, terminal .comma, terminal .name]
  | argsMany =>
    [terminal .less, nonterminal .type1, nonterminal .moreArgs, terminal .greater]
  | argsOne => [terminal .less, nonterminal .type1, terminal .greater]
  | moreArgsOne => [terminal .comma, nonterminal .type1]
  | moreArgsNext => [nonterminal .moreArgs, terminal .comma, nonterminal .type1]
  | typeMany => [nonterminal .type1, nonterminal .alternatives]
  | typeOne => [nonterminal .type1]
  | alternativesOne => [terminal .slash, nonterminal .type1]
  | alternativesNext => [nonterminal .alternatives, terminal .slash, nonterminal .type1]
  | type1Binary => [nonterminal .type2, nonterminal .operator, nonterminal .type2]
  | type1Operand => [nonterminal .type2]
  | operatorRange => [terminal .range]
  | operatorControl => [terminal .control]
  | type2Value => [nonterminal .value]
  | type2Name => [nonterminal .typeName]
  | type2Paren => [terminal .openParen, nonterminal .type, terminal .closeParen]
  | type2Map => [terminal .openBrace, nonterminal .group, terminal .closeBrace]
  | type2Array => [terminal .openBracket, nonterminal .group, terminal .closeBracket]
  | type2Unwrap => [terminal .tilde, nonterminal .typeName]
  | type2ChoiceGroup =>
    [terminal .ampersand, terminal .openParen, nonterminal .group, terminal .closeParen]
  | type2ChoiceName => [terminal .ampersand, nonterminal .typeName]
  | type2Tagged =>
    [terminal .tag, terminal .openParen, nonterminal .type, terminal .closeParen]
  | type2Major => [terminal .major]
  | type2Any => [terminal .hash]
  | typeNameGeneric => [terminal .name, nonterminal .args]
  | typeNamePlain => [terminal .name]
  | groupMany => [nonterminal .choice, nonterminal .choices]
  | groupOne => [nonterminal .choice]
  | choicesOne => [terminal .groupChoice, nonterminal .choice]
  | choicesNext => [nonterminal .choices, terminal .groupChoice, nonterminal .choice]
  | choiceEntries => [nonterminal .entries]
  | choiceEmpty => []
  | entriesOneComma => [nonterminal .entry, terminal .comma]
  | entriesOne => [nonterminal .entry]
  | entriesNextComma => [nonterminal .entries, nonterminal .entry, terminal .comma]
  | entriesNext => [nonterminal .entries, nonterminal .entry]
  | entryOccurKey => [nonterminal .occur, nonterminal .memberKey, nonterminal .type]
  | entryOccur => [nonterminal .occur, nonterminal .type]
  | entryKey => [nonterminal .memberKey, nonterminal .type]
  | entryType => [nonterminal .type]
  | entryOccurGroup =>
    [nonterminal .occur, terminal .openParen, nonterminal .group, terminal .closeParen]
  | entryGroup => [terminal .openParen, nonterminal .group, terminal .closeParen]
  | keyCut => [nonterminal .type1, terminal .caret, terminal .arrow]
  | keyType => [nonterminal .type1, terminal .arrow]
  | keyBareword => [nonterminal .bareword, terminal .colon]
  | keyValue => [nonterminal .value, terminal .colon]
  | bareword => [terminal .name]
  | occur => [terminal .occurrence]
  | valueNumber => [terminal .number]
  | valueText => [terminal .text]
  | valueBytes => [terminal .bytes]

theorem mem_productions_iff {p : Production} {n : Nonterminal} :
    p ∈ n.productions ↔ p.lhs = n := by
  cases n <;> cases p <;> decide

end Production

end Cddl
