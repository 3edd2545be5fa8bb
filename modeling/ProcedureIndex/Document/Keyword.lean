/-!
The words with a meaning of their own.
-/

namespace ProcedureIndex
namespace Keyword

def control : List String :=
  ["if", "else", "for", "while", "return", "step"]

def declaring : List String :=
  ["let", "const", "fn", "class", "pipeline", "alias", "macro", "extends", "static"]

end Keyword
end ProcedureIndex
