import Tftp.Launch

namespace Tftp
namespace Program

def write (stream : IO.FS.Stream) (bytes : Bytes) : IO Unit := do
  stream.write (ByteArray.mk bytes.toArray)
  stream.flush

def print (output : Log.Output) : IO Unit := do
  write (← IO.getStdout) output.out
  write (← IO.getStderr) output.err

def bytesOf (s : String) : Bytes := s.toUTF8.toList

def isDirectory (path : String) : IO Bool := do
  try
    discard (IO.FS.realPath (path ++ "/."))
    return true
  catch _ => return false

def run (args : List String) : IO UInt32 := do
  let logVariable ← IO.getEnv "TFTPFF_LOG"
  let program := ascii "tftpffd"
  let args := args.map bytesOf
  let root := (Settings.ofCommandLine {} (fun _ => true) program args).1.root
  let rootExists ← isDirectory ((String.fromUTF8? (ByteArray.mk root.toArray)).getD "")
  match launch (fun _ => rootExists) program args (logVariable.map bytesOf) with
  | .exit code output =>
    print output
    return code.toUInt32
  | .serve _ _ output =>
    print output
    write (← IO.getStderr) (ascii "Server failed: there is no socket to serve\n")
    return 1

end Program
end Tftp

def main (args : List String) : IO UInt32 := Tftp.Program.run args
