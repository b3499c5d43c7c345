/-!
# Machine words

Sizes are 64-bit words: a count that is computed rather than measured is reduced modulo
`wordModulus`, and a count that is read must be below it. The bytes of one array are counted by a
signed word, so an array takes at most `arrayLimit` of them.
-/

namespace StagedQP

/-- Number of values of a machine word, two to the sixty-fourth. -/
def wordModulus : Nat := 18446744073709551616

/-- The largest number of bytes that one array takes, the largest signed word. -/
def arrayLimit : Nat := 9223372036854775807

end StagedQP
