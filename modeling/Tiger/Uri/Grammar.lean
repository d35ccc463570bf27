import Tiger.Http.RequestGrammar

/-!
# URIs - the grammar

This module is the machine of `src/uri.rl`, rule by rule and under the names of the source.  A
number that stands alone is a byte with that code, so `1 digit{2}` and `2 [0-4] digit` in
`dec_octet` do not begin with a digit.

The number of an action is its place in the order in which the compiler embeds actions; a rule
that occurs twice in the machine takes its first number.
-/

namespace Tiger
namespace Uri

open Lib.Ragel Lib.Ragel.Expr
open Http.RequestGrammar (any ascii alpha digit xdigit)

/-- The actions of the machine. -/
inductive UriAction
  | marku
  | markh
  | saveScheme
  | savePort
  | saveUser
  | saveHost
  | savePath
  | saveQuery
  | saveFragment
deriving DecidableEq

/-- Expressions of this grammar. -/
abbrev E := Expr UriAction

namespace Grammar

def subDelims : ByteClass := .oneOf ['!', '$', '&', '\'', '(', ')', '*', '+', ',', ';', '=']

def unreserved : ByteClass := .union alpha (.union digit (.oneOf ['-', '.', '_', '~']))

def pctEncoded : E := seq [lit ['%'], chars xdigit, chars xdigit]

/-- `scheme` without its actions. -/
def schemeText : E :=
  seq [chars alpha, star (choice [chars alpha, chars digit, lit ['+'], lit ['-'], lit ['.']])]

def scheme : E := leaving 1 .saveScheme (entering 0 .marku schemeText)

/-! ## Authorities -/

def user : E := star (choice [chars unreserved, pctEncoded, chars subDelims, lit [':']])

def decOctet : E :=
  choice [
    chars digit,
    seq [chars (.range 49 57), chars digit],
    seq [chars (.range 1 1), times 2 (chars digit)],
    seq [chars (.range 2 2), chars (.range 48 52), chars digit],
    seq [lit ['2', '5'], chars (.range 48 53)]]

def ipV4 : E := seq [decOctet, lit ['.'], decOctet, lit ['.'], decOctet, lit ['.'], decOctet]

def h16 : E := between 1 4 (chars xdigit)

def ls32 : E := choice [seq [h16, lit [':'], h16], ipV4]

/-- `(h16 ":"){n}` -/
def groups (n : Nat) : E := times n (seq [h16, lit [':']])

/-- `((h16 ":"){n} h16)?` -/
def optGroups (n : Nat) : E := opt (seq [groups n, h16])

def ipV6 : E :=
  choice [
    seq [groups 6, ls32],
    seq [lit [':', ':'], groups 5, ls32],
    seq [opt h16, lit [':', ':'], groups 4, ls32],
    seq [optGroups 1, lit [':', ':'], groups 3, ls32],
    seq [optGroups 2, lit [':', ':'], groups 2, ls32],
    seq [optGroups 3, lit [':', ':'], groups 1, ls32],
    seq [optGroups 4, lit [':', ':'], ls32],
    seq [optGroups 5, lit [':', ':'], h16],
    seq [optGroups 6, lit [':', ':']]]

def ipFuture : E :=
  seq [lit ['v'], plus (chars xdigit), lit ['.'],
    plus (choice [chars unreserved, chars subDelims, lit [':']])]

def ipLiteral : E := seq [lit ['['], choice [ipV6, ipFuture], lit [']']]

def regName : E := star (choice [chars unreserved, pctEncoded, chars subDelims])

def host : E := choice [ipLiteral, ipV4, regName]

def port : E := star (chars digit)

def authority (n : Nat) : E :=
  entering n .markh (seq [
    opt (seq [leaving (n + 1) .saveUser user, lit ['@']]),
    leaving (n + 3) .saveHost (entering (n + 2) .markh host),
    opt (seq [lit [':'], leaving (n + 5) .savePort (entering (n + 4) .markh port)])])

/-! ## Paths -/

def pchar : E :=
  choice [chars (.diff any ascii), chars unreserved, pctEncoded, chars subDelims, lit [':'],
    lit ['@']]

def segment : E := star pchar

def segmentNz : E := plus pchar

/-- `(pchar - ":")+` -/
def segmentNzNc : E :=
  plus (choice [chars (.diff any ascii), chars unreserved, pctEncoded, chars subDelims, lit ['@']])

def pathAbempty : E := seq [opt (seq [lit ['/'], segment]), star (seq [lit ['/'], segment])]

def pathAbsolute : E := seq [lit ['/'], opt (seq [segmentNz, star (seq [lit ['/'], segment])])]

def pathNoscheme : E := seq [segmentNzNc, star (seq [lit ['/'], segment])]

def pathRootless : E := seq [segmentNz, star (seq [lit ['/'], segment])]

def pathEmpty : E := lit []

/-! ## References -/

/-- `query` and `fragment` without their actions. -/
def queryText : E := star (choice [pchar, lit ['/'], lit ['?']])

def query (n : Nat) : E := leaving (n + 1) .saveQuery (entering n .marku queryText)

def fragment (n : Nat) : E := leaving (n + 1) .saveFragment (entering n .marku queryText)

def hierPart : E :=
  choice [
    seq [lit ['/', '/'], authority 2, leaving 9 .savePath (entering 8 .markh pathAbempty)],
    pathAbsolute, pathRootless, pathEmpty]

def relativePart : E :=
  choice [seq [lit ['/', '/'], authority 14, pathAbempty], pathAbsolute, pathNoscheme, pathEmpty]

def relativeRef : E :=
  seq [relativePart, opt (seq [lit ['?'], query 20]), opt (seq [lit ['#'], fragment 22])]

def uri : E :=
  seq [scheme, lit [':'], hierPart, opt (seq [lit ['?'], query 10]),
    opt (seq [lit ['#'], fragment 12])]

def uriReference : E := choice [uri, relativeRef]

/-- `main := uri_reference;` -/
def main : E := uriReference

end Grammar

end Uri
end Tiger
