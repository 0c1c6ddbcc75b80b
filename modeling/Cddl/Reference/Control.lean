import Cddl.Reference.Entry

/-!
The control operators, each with a page that shows it in use, in a fixed order by which a client
may refer to them. Their labels begin with the point that calls for them.
-/
namespace Cddl.Reference

/-- An entry whose page shows the label, a description and a sample. -/
def controlWithSample (label detail description sample : String) : Entry :=
  ⟨label, detail,
    some ("**`" ++ label ++ "`**\n\n" ++ description ++ "\n\n```cddl\n" ++ sample ++ "\n```")⟩

def controls : List Entry := [
  controlWithSample ".size" "alvo .size tamanho"
    "Limita o tamanho em bytes de uma string ou de um inteiro sem sinal."
    "ip4 = bstr .size 4\nbyte = uint .size 1",
  controlWithSample ".bits" "alvo .bits bits-permitidos"
    "Restringe quais bits podem estar ligados em um uint ou bstr."
    "tcpflags = uint .bits flags\nflags = &(fin: 8, syn: 9, rst: 10)",
  controlWithSample ".regexp" "tstr .regexp padrão"
    "Exige que a string de texto case com uma expressão regular XSD."
    "nai = tstr .regexp \"[A-Za-z0-9]+@[A-Za-z0-9]+(\\\\.[A-Za-z0-9]+)+\"",
  controlWithSample ".pcre" "tstr .pcre padrão"
    "Exige que a string de texto case com uma expressão regular PCRE."
    "hex = tstr .pcre \"^[0-9a-f]+$\"",
  controlWithSample ".cbor" "bstr .cbor tipo"
    "A string de bytes contém um item CBOR codificado que satisfaz o tipo."
    "signed = bstr .cbor payload",
  controlWithSample ".cborseq" "bstr .cborseq tipo"
    "A string de bytes contém uma sequência CBOR cujos itens satisfazem o array."
    "seq = bstr .cborseq [* uint]",
  controlWithSample ".within" "tipo1 .within tipo2"
    "O tipo da esquerda deve ser um subconjunto do tipo da direita."
    "message = $message .within message-structure",
  controlWithSample ".and" "tipo1 .and tipo2"
    "Interseção: o valor deve satisfazer os dois tipos."
    "speed = number .and (0..100)",
  controlWithSample ".lt" "alvo .lt valor"
    "Comparação numérica: menor que."
    "small = uint .lt 10",
  controlWithSample ".le" "alvo .le valor"
    "Comparação numérica: menor ou igual a."
    "small = uint .le 10",
  controlWithSample ".gt" "alvo .gt valor"
    "Comparação numérica: maior que."
    "positive = int .gt 0",
  controlWithSample ".ge" "alvo .ge valor"
    "Comparação numérica: maior ou igual a."
    "natural = int .ge 0",
  controlWithSample ".eq" "alvo .eq valor"
    "Igualdade: o valor deve ser igual ao operando da direita."
    "version = uint .eq 1",
  controlWithSample ".ne" "alvo .ne valor"
    "Desigualdade: o valor deve ser diferente do operando da direita."
    "nonzero = int .ne 0",
  controlWithSample ".default" "tipo .default valor"
    "Indica o valor assumido quando uma entrada opcional é omitida."
    "timer = \x7b ? timeout: uint .default 5 \x7d",
  controlWithSample ".cat" "texto1 .cat texto2"
    "Concatena duas strings (texto ou bytes) em uma única string (RFC 9165)."
    "greeting = \"Hello \" .cat name",
  controlWithSample ".det" "texto1 .det texto2"
    "Concatenação com remoção da indentação comum (dedent) (RFC 9165)."
    "block = \"\" .det \"\n  linha 1\n  linha 2\n\"",
  controlWithSample ".plus" "número1 .plus número2"
    "Soma numérica de dois valores constantes (RFC 9165)."
    "port = base .plus 1",
  controlWithSample ".abnf" "tstr .abnf regras-abnf"
    "A string de texto deve casar com uma gramática ABNF (RFC 9165)."
    "date = tstr .abnf (\"full-date\" .det rfc3339)",
  controlWithSample ".abnfb" "bstr .abnfb regras-abnf"
    "A string de bytes deve casar com uma gramática ABNF (RFC 9165)."
    "oid = bstr .abnfb (\"oid\" .det oid-abnf)",
  controlWithSample ".feature" "tipo .feature nome"
    "Marca o uso de uma funcionalidade opcional nomeada (RFC 9165)."
    "extra = tstr .feature \"extensions\""]

def controlEntry? (label : String) : Option Entry := Entry.find? controls label

end Cddl.Reference
