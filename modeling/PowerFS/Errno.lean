namespace PowerFS

/-- The error numbers the modelled functions return; a C result `-EINVAL` is
`Except.error .einval`. -/
inductive Errno where
  | enoent | eio | e2big | eagain | enomem | efault | einval | enospc
  | enolink | ebadmsg | enotconn | etimedout | estale | erestartsys
  | eexist | enametoolong | eshutdown | eintr | econnreset | enodev
  | eproto | eopnotsupp | efbig | enodata | erange | enotempty | emsgsize
  deriving DecidableEq, Repr

end PowerFS
