namespace Rds

/-- The five kinds of cons cell. They share one layout and may follow each other
in one chain. -/
inductive PairKind
  | list | language | closure | promise | dots
deriving DecidableEq

/-- The item types of the format. Types that are known but never read are listed
as well, so that they are refused by name. -/
inductive TypeCode
  | nil | symbol | pairlist | closure | environment | promise | language | special | builtin
  | char | logical | integer | double | complex | string | dots | any | list | expression
  | bytecode | externalPointer | weakReference | raw | s4 | persist | package
  | namespaceEnv | baseNamespace | missingArg | unbound | globalEnv | nilValue | reference
deriving DecidableEq

namespace TypeCode

def all : List TypeCode :=
  [nil, symbol, pairlist, closure, environment, promise, language, special, builtin, char,
    logical, integer, double, complex, string, dots, any, list, expression, bytecode,
    externalPointer, weakReference, raw, s4, persist, package, namespaceEnv, baseNamespace,
    missingArg, unbound, globalEnv, nilValue, reference]

def code : TypeCode → UInt8
  | nil => 0
  | symbol => 1
  | pairlist => 2
  | closure => 3
  | environment => 4
  | promise => 5
  | language => 6
  | special => 7
  | builtin => 8
  | char => 9
  | logical => 10
  | integer => 13
  | double => 14
  | complex => 15
  | string => 16
  | dots => 17
  | any => 18
  | list => 19
  | expression => 20
  | bytecode => 21
  | externalPointer => 22
  | weakReference => 23
  | raw => 24
  | s4 => 25
  | persist => 247
  | package => 248
  | namespaceEnv => 249
  | baseNamespace => 250
  | missingArg => 251
  | unbound => 252
  | globalEnv => 253
  | nilValue => 254
  | reference => 255

def name : TypeCode → String
  | nil => "NILSXP"
  | symbol => "SYMSXP"
  | pairlist => "LISTSXP"
  | closure => "CLOSXP"
  | environment => "ENVSXP"
  | promise => "PROMSXP"
  | language => "LANGSXP"
  | special => "SPECIALSXP"
  | builtin => "BUILTINSXP"
  | char => "CHARSXP"
  | logical => "LGLSXP"
  | integer => "INTSXP"
  | double => "REALSXP"
  | complex => "CPLXSXP"
  | string => "STRSXP"
  | dots => "DOTSXP"
  | any => "ANYSXP"
  | list => "VECSXP"
  | expression => "EXPRSXP"
  | bytecode => "BCODESXP"
  | externalPointer => "EXTPTRSXP"
  | weakReference => "WEAKREFSXP"
  | raw => "RAWSXP"
  | s4 => "S4SXP"
  | persist => "PERSISTSXP"
  | package => "PACKAGESXP"
  | namespaceEnv => "NAMESPACESXP"
  | baseNamespace => "BASENAMESPACE_SXP"
  | missingArg => "MISSINGARG_SXP"
  | unbound => "UNBOUNDVALUE_SXP"
  | globalEnv => "GLOBALENV_SXP"
  | nilValue => "NILVALUE_SXP"
  | reference => "REFSXP"

def ofCode? (byte : UInt8) : Option TypeCode :=
  all.find? fun t ↦ t.code == byte

/-- The kind of cell that an item of the type starts, if it starts one. -/
def pairKind? : TypeCode → Option PairKind
  | pairlist => some .list
  | language => some .language
  | closure => some .closure
  | promise => some .promise
  | dots => some .dots
  | _ => none

theorem ofCode?_code (t : TypeCode) : ofCode? t.code = some t := by
  cases t <;> rfl

theorem code_of_ofCode? {byte : UInt8} {t : TypeCode} (h : ofCode? byte = some t) :
    t.code = byte := by
  simpa using List.find?_some h

theorem code_inj {a b : TypeCode} (h : a.code = b.code) : a = b :=
  Option.some.inj ((ofCode?_code a).symm.trans (h ▸ ofCode?_code b))

theorem ofCode?_eq_some_iff {byte : UInt8} {t : TypeCode} :
    ofCode? byte = some t ↔ t.code = byte :=
  ⟨code_of_ofCode?, fun h ↦ h ▸ ofCode?_code t⟩

end TypeCode

end Rds
