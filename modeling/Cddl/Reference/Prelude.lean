import Cddl.Reference.Entry

/-!
The standard prelude: the types that every document may use without defining them, in a fixed
order by which a client may refer to them.
-/
namespace Cddl.Reference

def prelude : List Entry := [
  ⟨"any", "any = # (qualquer item de dados CBOR)", none⟩,
  ⟨"uint", "uint = #0 (inteiro sem sinal, tipo maior 0)", none⟩,
  ⟨"nint", "nint = #1 (inteiro negativo, tipo maior 1)", none⟩,
  ⟨"int", "int = uint / nint (inteiro com ou sem sinal)", none⟩,
  ⟨"bstr", "bstr = #2 (string de bytes, tipo maior 2)", none⟩,
  ⟨"bytes", "bytes = bstr (sinônimo de bstr)", none⟩,
  ⟨"tstr", "tstr = #3 (string de texto UTF-8, tipo maior 3)", none⟩,
  ⟨"text", "text = tstr (sinônimo de tstr)", none⟩,
  ⟨"tdate", "tdate = #6.0(tstr) (data/hora em texto RFC 3339)", none⟩,
  ⟨"time", "time = #6.1(number) (data/hora em segundos desde a época)", none⟩,
  ⟨"number", "number = int / float (qualquer número)", none⟩,
  ⟨"biguint", "biguint = #6.2(bstr) (bignum sem sinal)", none⟩,
  ⟨"bignint", "bignint = #6.3(bstr) (bignum negativo)", none⟩,
  ⟨"bigint", "bigint = biguint / bignint (bignum com ou sem sinal)", none⟩,
  ⟨"integer", "integer = int / bigint (inteiro de qualquer tamanho)", none⟩,
  ⟨"unsigned", "unsigned = uint / biguint (inteiro sem sinal de qualquer tamanho)", none⟩,
  ⟨"decfrac", "decfrac = #6.4([e10: int, m: integer]) (fração decimal)", none⟩,
  ⟨"bigfloat", "bigfloat = #6.5([e2: int, m: integer]) (ponto flutuante binário)", none⟩,
  ⟨"eb64url", "eb64url = #6.21(any) (conversão esperada para base64url)", none⟩,
  ⟨"eb64legacy", "eb64legacy = #6.22(any) (conversão esperada para base64)", none⟩,
  ⟨"eb16", "eb16 = #6.23(any) (conversão esperada para base16)", none⟩,
  ⟨"encoded-cbor", "encoded-cbor = #6.24(bstr) (item CBOR codificado)", none⟩,
  ⟨"uri", "uri = #6.32(tstr) (URI)", none⟩,
  ⟨"b64url", "b64url = #6.33(tstr) (texto em base64url)", none⟩,
  ⟨"b64legacy", "b64legacy = #6.34(tstr) (texto em base64)", none⟩,
  ⟨"regexp", "regexp = #6.35(tstr) (expressão regular)", none⟩,
  ⟨"mime-message", "mime-message = #6.36(tstr) (mensagem MIME)", none⟩,
  ⟨"cbor-any", "cbor-any = #6.55799(any) (auto-descrição CBOR)", none⟩,
  ⟨"float16", "float16 = #7.25 (ponto flutuante de meia precisão)", none⟩,
  ⟨"float32", "float32 = #7.26 (ponto flutuante de precisão simples)", none⟩,
  ⟨"float64", "float64 = #7.27 (ponto flutuante de precisão dupla)", none⟩,
  ⟨"float16-32", "float16-32 = float16 / float32", none⟩,
  ⟨"float32-64", "float32-64 = float32 / float64", none⟩,
  ⟨"float", "float = float16-32 / float64 (qualquer ponto flutuante)", none⟩,
  ⟨"false", "false = #7.20 (valor simples falso)", none⟩,
  ⟨"true", "true = #7.21 (valor simples verdadeiro)", none⟩,
  ⟨"bool", "bool = false / true (booleano)", none⟩,
  ⟨"nil", "nil = #7.22 (valor simples nulo)", none⟩,
  ⟨"null", "null = nil (sinônimo de nil)", none⟩,
  ⟨"undefined", "undefined = #7.23 (valor simples indefinido)", none⟩]

def preludeEntry? (label : String) : Option Entry := Entry.find? prelude label

def isPreludeName (label : String) : Bool := prelude.any (·.label == label)

end Cddl.Reference
