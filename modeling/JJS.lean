import JJS.BigInt.DivMod
import JJS.BigInt.Bitwise
import JJS.Hashset.Runs
import JJS.LineInfo.Correct
import JJS.Container.Iterate
import JJS.Promise.Runs
import JJS.Json.RoundTrip
import JJS.Jmem.Realloc
import JJS.Snapshot.Correct
import JJS.BigInt.Pow
import JJS.BigInt.RoundTrip
import JJS.BigInt.Compare
import JJS.BigInt.ToNumber
import JJS.Gc.Exact
import JJS.Builtin.MergeSort
import JJS.Builtin.DateClip
import JJS.BigInt.WideDigits
import JJS.Jmem.Account
import JJS.Literals.Intern
import JJS.Builtin.UriExact
import JJS.Regexp.StepBack
import JJS.Regexp.Terminates
import JJS.Regexp.ClassSet
import JJS.Lexer.Agree
import JJS.Promise.CountsOnce
import JJS.PropertyStore.Runs
import JJS.PropertyStore.Probing
import JJS.ExtendedInfo
import JJS.ParserStack.ClassFields
import JJS.VmStack.Balanced
import JJS.Pmap.Validated
import JJS.Arguments.ParameterMap
import JJS.Builtin.DateStrings
import JJS.FastArray.Runs
import JJS.Jmem.FirstFit
